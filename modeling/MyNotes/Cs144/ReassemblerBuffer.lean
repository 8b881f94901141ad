/-
The block buffer of the reassembler: what `buffer_push` and the drain loop of
`buffer_pop` do to the set of indices the buffer covers.

The blocks of a sorted buffer are disjoint, so the set of covered indices fixes
everything a client can see; which blocks carry it does not matter.
-/

import MyNotes.Cs144.Reassembler
import MyNotes.Library.SortedCut

namespace MyNotes.Cs144

open Library.Segment
open Library.SortedCut

/-- A block is non-empty and holds the bytes of the stream on its range. -/
structure Block.Holds (stream : ℕ → Byte) (block : Block) : Prop where
 nonempty : block.first ≤ block.last
 content : block.data = segment stream block.first (block.last + 1 - block.first)

variable {stream : ℕ → Byte}

theorem Block.Holds.size {block : Block} (holds : block.Holds stream) :
 block.data.length = block.last + 1 - block.first := by
 rw [holds.content, segment_length]

/-- Some block of the buffer holds the byte at `index`. -/
def Covers (buffer : List Block) (index : ℕ) : Prop :=
 ∃ block ∈ buffer, block.first ≤ index ∧ index ≤ block.last

@[simp] theorem covers_nil (index : ℕ) : ¬ Covers [] index := by
 simp [Covers]

theorem covers_cons (block : Block) (rest : List Block) (index : ℕ) :
 Covers (block :: rest) index ↔
  (block.first ≤ index ∧ index ≤ block.last) ∨ Covers rest index := by
 simp [Covers]

theorem covers_append (left right : List Block) (index : ℕ) :
 Covers (left ++ right) index ↔ Covers left index ∨ Covers right index := by
 simp [Covers, or_and_right, exists_or]

def totalSize (buffer : List Block) : ℕ :=
 (buffer.map (fun block => block.data.length)).sum

theorem totalSize_cons (block : Block) (rest : List Block) :
 totalSize (block :: rest) = block.data.length + totalSize rest := rfl

theorem totalSize_append (left right : List Block) :
 totalSize (left ++ right) = totalSize left + totalSize right := by
 simp [totalSize]

/-- Sorted, pairwise disjoint blocks that hold the bytes of the stream. -/
structure SortedBlocks (stream : ℕ → Byte) (buffer : List Block) : Prop where
 holds : ∀ block ∈ buffer, block.Holds stream
 sorted : buffer.Pairwise (fun left right => left.last < right.first)

namespace SortedBlocks

variable {stream : ℕ → Byte} {buffer left right : List Block} {block : Block}

theorem nil : SortedBlocks stream [] :=
 ⟨by simp, .nil⟩

theorem append_iff :
 SortedBlocks stream (left ++ right) ↔
  SortedBlocks stream left ∧ SortedBlocks stream right ∧
   ∀ a ∈ left, ∀ b ∈ right, a.last < b.first := by
 constructor
 · intro blocks
   have pairs := List.pairwise_append.mp blocks.sorted
   exact ⟨⟨fun a member => blocks.holds a (List.mem_append_left _ member), pairs.1⟩,
    ⟨fun a member => blocks.holds a (List.mem_append_right _ member), pairs.2.1⟩,
    pairs.2.2⟩
 · rintro ⟨first, second, across⟩
   refine ⟨?_, List.pairwise_append.mpr ⟨first.sorted, second.sorted, across⟩⟩
   intro a member
   rcases List.mem_append.mp member with inFirst | inSecond
   · exact first.holds a inFirst
   · exact second.holds a inSecond

theorem cons_iff :
 SortedBlocks stream (block :: right) ↔
  block.Holds stream ∧ SortedBlocks stream right ∧
   ∀ b ∈ right, block.last < b.first := by
 constructor
 · intro blocks
   have pairs := List.pairwise_cons.mp blocks.sorted
   exact ⟨blocks.holds block List.mem_cons_self,
    ⟨fun b member => blocks.holds b (List.mem_cons_of_mem _ member), pairs.2⟩, pairs.1⟩
 · rintro ⟨holds, rest, before⟩
   refine ⟨?_, List.pairwise_cons.mpr ⟨before, rest.sorted⟩⟩
   intro b member
   rcases List.mem_cons.mp member with same | later
   · subst b; exact holds
   · exact rest.holds b later

variable (blocks : SortedBlocks stream buffer)
include blocks

theorem covers_first (member : block ∈ buffer) : Covers buffer block.first :=
 ⟨block, member, le_refl _, (blocks.holds block member).nonempty⟩

theorem covers_last (member : block ∈ buffer) : Covers buffer block.last :=
 ⟨block, member, (blocks.holds block member).nonempty, le_refl _⟩

theorem lasts_sorted : buffer.Pairwise (fun left right => left.last < right.last) := by
 refine blocks.sorted.imp_of_mem ?_
 intro a b _ inBuffer before
 have ordered := (blocks.holds b inBuffer).nonempty
 omega

theorem firsts_sorted : buffer.Pairwise (fun left right => left.first < right.first) := by
 refine blocks.sorted.imp_of_mem ?_
 intro a b inBuffer _ before
 have ordered := (blocks.holds a inBuffer).nonempty
 omega

end SortedBlocks

/-! ### The cut at `lef` and `rig` -/

/-- The buffer cut by the two searches of `buffer_push`. -/
structure Cut (buffer before inside after : List Block) (l r : ℕ) : Prop where
 whole : buffer = before ++ (inside ++ after)
 before_lt : ∀ block ∈ before, block.last < l
 inside_meets : ∀ block ∈ inside, l ≤ block.last ∧ block.first ≤ r
 after_gt : ∀ block ∈ after, r < block.first

theorem cut_of_searches {buffer : List Block} (blocks : SortedBlocks stream buffer) (l r : ℕ) :
 let fromLef := buffer.dropWhile (fun block => decide (block.last < l))
 Cut buffer (buffer.takeWhile (fun block => decide (block.last < l)))
  (fromLef.takeWhile (fun block => !decide (r < block.first)))
  (fromLef.dropWhile (fun block => !decide (r < block.first))) l r := by
 intro fromLef
 have whole : buffer =
  buffer.takeWhile (fun block => decide (block.last < l)) ++ fromLef :=
  (List.takeWhile_append_dropWhile).symm
 have notBefore : ∀ block ∈ fromLef, l ≤ block.last := by
  intro block member
  have failed := eq_false_of_mem_dropWhile (fun block => decide (block.last < l))
   blocks.lasts_sorted
   (fun a b before stop => by simp at stop ⊢; omega) block member
  simpa using failed
 have sublist : fromLef.Sublist buffer := List.dropWhile_sublist _
 refine ⟨?_, ?_, ?_, ?_⟩
 · rw [List.takeWhile_append_dropWhile]
   exact whole
 · intro block member
   simpa using List.mem_takeWhile_imp member
 · intro block member
   refine ⟨notBefore block ((List.takeWhile_sublist _).mem member), ?_⟩
   simpa using List.mem_takeWhile_imp member
 · intro block member
   have failed := eq_false_of_mem_dropWhile (fun block => !decide (r < block.first))
    (blocks.firsts_sorted.sublist sublist)
    (fun a b before stop => by simp at stop ⊢; omega) block member
   simpa using failed

/-! ### The merge -/

theorem filled_copies {lo hi : ℕ} (target : List Byte) (known : ℕ → Prop) (inside : List Block)
 (holds : ∀ block ∈ inside, block.Holds stream)
 (within : ∀ block ∈ inside, lo ≤ block.first ∧ block.last ≤ hi)
 (size : target.length = hi + 1 - lo) (filled : Filled stream lo target known) :
 let copied := inside.foldl
  (fun s block => copyAt s (block.first - lo) block.data) target
 copied.length = hi + 1 - lo ∧
  Filled stream lo copied (fun index => known index ∨ Covers inside index) := by
 induction inside generalizing target known with
 | nil =>
  simp_all
 | cons block rest ih =>
  have blockHolds := holds block List.mem_cons_self
  have ordered := blockHolds.nonempty
  have bounds := within block List.mem_cons_self
  have fits : block.first + (block.last + 1 - block.first) ≤ lo + target.length := by
   omega
  have length : (copyAt target (block.first - lo) block.data).length =
   hi + 1 - lo := by
   rw [copyAt_length _ _ _ (by rw [blockHolds.size]; omega)]
   exact size
  have copied := filled.copyAt bounds.1 fits
  rw [← blockHolds.content] at copied
  obtain ⟨finalLength, finalFilled⟩ := ih _ _
   (fun b member => holds b (List.mem_cons_of_mem _ member))
   (fun b member => within b (List.mem_cons_of_mem _ member)) length copied
  refine ⟨finalLength, ?_⟩
  intro index bound covered
  refine finalFilled index bound ?_
  rw [covers_cons] at covered
  rcases covered with old | new | later
  · exact .inl (.inl old)
  · exact .inl (.inr ⟨new.1, by omega⟩)
  · exact .inr later

theorem merged_bytes {lo hi l r : ℕ} (inside : List Block)
 (holds : ∀ block ∈ inside, block.Holds stream)
 (within : ∀ block ∈ inside, lo ≤ block.first ∧ block.last ≤ hi) (lower : lo ≤ l) (ordered : l ≤ r)
 (upper : r ≤ hi) (complete : ∀ index, lo ≤ index ∧ index ≤ hi →
  Covers inside index ∨ (l ≤ index ∧ index < r + 1)) :
 copyAt
  (inside.foldl (fun s block => copyAt s (block.first - lo) block.data)
   (List.replicate (hi + 1 - lo) 0))
  (l - lo) (segment stream l (r + 1 - l)) = segment stream lo (hi + 1 - lo) := by
 obtain ⟨copiedLength, copiedFilled⟩ := filled_copies
  (List.replicate (hi + 1 - lo) 0) (fun _ => False)
  inside holds within List.length_replicate (fun _ _ impossible => impossible.elim)
 have room : l + (r + 1 - l) ≤ lo + (inside.foldl
  (fun s block => copyAt s (block.first - lo) block.data)
  (List.replicate (hi + 1 - lo) 0)).length := by
  rw [copiedLength]
  omega
 have whole := copiedFilled.copyAt lower room
 have length := copyAt_length (inside.foldl
  (fun s block => copyAt s (block.first - lo) block.data)
  (List.replicate (hi + 1 - lo) 0)) (segment stream l (r + 1 - l)) (l - lo)
  (by rw [copiedLength, segment_length]; omega)
 rw [copiedLength] at length
 have bytes := whole.eq_segment (by
  intro index above below
  rw [length] at below
  rcases complete index ⟨above, by omega⟩ with covered | new
  · exact .inl (.inr covered)
  · exact .inr ⟨new.1, by omega⟩)
 rw [length] at bytes
 exact bytes

/-- What a push leaves in the buffer: the same kind of buffer, which covers the
pushed range `[first, stop)` besides what it covered before. -/
structure Reassembler.Pushed (stream : ℕ → Byte) (old new : Reassembler)
 (first stop : ℕ) : Prop where
 blocks : SortedBlocks stream new.buffer
 size : new.bufferSize = totalSize new.buffer
 covers : ∀ index, Covers new.buffer index ↔
  Covers old.buffer index ∨ (first ≤ index ∧ index < stop)

namespace Reassembler

variable {stream : ℕ → Byte} {self : Reassembler} {before inside fromRig : List Block}
 {l r : ℕ} {data : List Byte}

theorem mergeCut_apart (cut : Cut self.buffer before [] fromRig l r) (ordered : l ≤ r)
 (size : data.length = r + 1 - l) :
 self.mergeCut before [] fromRig l r data =
  { self with
   bufferSize := self.bufferSize + (r + 1 - l)
   buffer := before ++ ⟨l, r, data⟩ :: fromRig } := by
 have left : fromRig.head?.elim l (fun lef => min l lef.first) = l := by
  cases fromRig with
  | nil => rfl
  | cons lef rest =>
   have behind := cut.after_gt lef List.mem_cons_self
   grind
 have right : before.getLast?.elim r (fun prev => max r prev.last) = r := by
  cases found : before.getLast? with
  | none => rfl
  | some prev =>
   have early := cut.before_lt prev (List.mem_of_getLast? found)
   simp only [Option.elim_some]
   omega
 have notContained : fromRig.head?.any (fun lef => lef.first = l ∧ lef.last = r) = false := by
  cases fromRig with
  | nil => rfl
  | cons lef rest =>
   have behind := cut.after_gt lef List.mem_cons_self
   grind
 simp only [mergeCut, List.nil_append, List.append_nil, left, right, notContained,
  Bool.false_eq_true, if_false, size, true_and, if_true]

theorem mergeCut_meets {head : Block} {rest : List Block} {last : Block}
 (lastOf : (head :: rest).getLast? = some last) :
 self.mergeCut before (head :: rest) fromRig l r data =
  let lo := min l head.first
  let hi := max r last.last
  if head.first = lo ∧ head.last = hi then self
  else
   { self with
    bufferSize := (head :: rest).foldl (fun size block => size - block.data.length)
     (self.bufferSize + (hi + 1 - lo))
    buffer := before ++ ⟨lo, hi, copyAt
     ((head :: rest).foldl (fun s block => copyAt s (block.first - lo) block.data)
      (List.replicate (hi + 1 - lo) 0)) (l - lo) data⟩ :: fromRig } := by
 have lastWhole : (before ++ head :: rest).getLast? = some last := by
  rw [List.getLast?_append, lastOf]
  rfl
 simp only [mergeCut, List.cons_append, List.head?_cons, lastWhole, Option.any_some,
  Option.elim_some, decide_eq_true_eq, reduceCtorEq, and_false, if_false]

theorem first_le_of_mem {block : Block} (blocks : SortedBlocks stream (head :: rest))
 (member : block ∈ head :: rest) : head.first ≤ block.first := by
 rcases List.mem_cons.mp member with same | later
 · rw [same]
 · exact le_of_lt (List.rel_of_pairwise_cons blocks.firsts_sorted later)

theorem last_le_of_getLast {buffer : List Block} {block last : Block}
 (blocks : SortedBlocks stream buffer)
 (lastOf : buffer.getLast? = some last) (member : block ∈ buffer) :
 block.last ≤ last.last := by
 obtain ⟨front, rfl⟩ := List.getLast?_eq_some_iff.mp lastOf
 rcases List.mem_append.mp member with earlier | same
 · exact le_of_lt ((List.pairwise_append.mp blocks.lasts_sorted).2.2 block earlier last
    List.mem_cons_self)
 · rw [List.mem_singleton.mp same]

theorem mergeCut_spec (data : List Byte)
 (cut : Cut self.buffer before inside fromRig l r)
 (blocks : SortedBlocks stream self.buffer)
 (size : self.bufferSize = totalSize self.buffer) (ordered : l ≤ r)
 (content : data = segment stream l (r + 1 - l)) :
 Pushed stream self (self.mergeCut before inside fromRig l r data) l (r + 1) := by
 have dataLength : data.length = r + 1 - l := by rw [content, segment_length]
 have cutBlocks := blocks
 rw [cut.whole, SortedBlocks.append_iff, SortedBlocks.append_iff] at cutBlocks
 obtain ⟨beforeBlocks, ⟨insideBlocks, afterBlocks, insideAfter⟩, beforeRest⟩ := cutBlocks
 have sizes : self.bufferSize =
  totalSize before + (totalSize inside + totalSize fromRig) := by
  rw [size, cut.whole, totalSize_append, totalSize_append]
 cases inside with
 | nil =>
  rw [mergeCut_apart cut ordered dataLength]
  refine ⟨?_, ?_, ?_⟩
  · refine SortedBlocks.append_iff.mpr ⟨beforeBlocks,
     SortedBlocks.cons_iff.mpr ⟨⟨ordered, content⟩, afterBlocks, cut.after_gt⟩, ?_⟩
    intro a inBefore b later
    rcases List.mem_cons.mp later with same | behind
    · rw [same]
      exact cut.before_lt a inBefore
    · exact beforeRest a inBefore b (by simpa using behind)
  · simp only [totalSize_append, totalSize_cons, dataLength, sizes]
    simp only [totalSize, List.map_nil, List.sum_nil]
    omega
  · intro index
    simp only [cut.whole, covers_append, covers_cons, covers_nil]
    constructor
    · rintro (early | new | late)
      · exact .inl (.inl early)
      · exact .inr ⟨new.1, by omega⟩
      · exact .inl (.inr (.inr late))
    · rintro ((early | none | late) | new)
      · exact .inl early
      · exact none.elim
      · exact .inr (.inr late)
      · exact .inr (.inl ⟨new.1, by omega⟩)
 | cons head rest =>
  obtain ⟨last, lastOf⟩ : ∃ last, (head :: rest).getLast? = some last :=
   ⟨_, List.getLast?_eq_some_getLast (List.cons_ne_nil _ _)⟩
  have lastMember := List.mem_of_getLast? lastOf
  have headMeets := cut.inside_meets head List.mem_cons_self
  have lastMeets := cut.inside_meets last lastMember
  -- The merged range is the pushed range and the blocks that meet it.
  have merged : ∀ index, (min l head.first ≤ index ∧ index ≤ max r last.last) ↔
   Covers (head :: rest) index ∨ (l ≤ index ∧ index < r + 1) := by
   intro index
   constructor
   · intro range
     by_cases low : index < l
     · exact .inl ⟨head, List.mem_cons_self, by omega, by omega⟩
     · by_cases high : r < index
       · exact .inl ⟨last, lastMember, by omega, by omega⟩
       · exact .inr ⟨by omega, by omega⟩
   · rintro (⟨block, member, bounds⟩ | new)
     · have lower := first_le_of_mem insideBlocks member
       have upper := last_le_of_getLast insideBlocks lastOf member
       omega
     · omega
  rw [mergeCut_meets lastOf]
  by_cases contained :
   head.first = min l head.first ∧ head.last = max r last.last
  · simp only [if_pos contained]
    refine ⟨blocks, size, fun index => ⟨.inl, ?_⟩⟩
    rintro (old | new)
    · exact old
    · rw [cut.whole, covers_append, covers_append]
      exact .inr (.inl ⟨head, List.mem_cons_self, by omega, by omega⟩)
  · simp only [if_neg contained]
    rw [content, merged_bytes (head :: rest) insideBlocks.holds
     (fun block member => by
      have lower := first_le_of_mem insideBlocks member
      have upper := last_le_of_getLast insideBlocks lastOf member
      omega)
     (Nat.min_le_left _ _) ordered (Nat.le_max_left _ _)
     (fun index range => (merged index).mp range)]
    refine ⟨?_, ?_, ?_⟩
    · refine SortedBlocks.append_iff.mpr ⟨beforeBlocks,
       SortedBlocks.cons_iff.mpr ⟨⟨by simp only; omega, rfl⟩, afterBlocks, ?_⟩, ?_⟩
      · intro b behind
        have past := cut.after_gt b behind
        have afterLast := insideAfter last lastMember b behind
        simp only
        omega
      · intro a inBefore b later
        rcases List.mem_cons.mp later with same | behind
        · have early := cut.before_lt a inBefore
          have first := beforeRest a inBefore head
           (List.mem_append_left _ List.mem_cons_self)
          rw [same]
          simp only
          omega
        · simp_all
    · rw [foldl_sub_eq, totalSize_append, totalSize_cons, segment_length, sizes]
      simp only [totalSize]
      omega
    · intro index
      rw [cut.whole]
      simp only [covers_append, covers_cons ⟨_, _, _⟩, merged]
      grind

theorem bufferPush_spec {first stop : ℕ}
 (blocks : SortedBlocks stream self.buffer)
 (size : self.bufferSize = totalSize self.buffer) (nonempty : first < stop)
 (content : data = segment stream first (stop - first)) :
 Pushed stream self (self.bufferPush first (stop - 1) data) first stop := by
 have cut := cut_of_searches blocks first (stop - 1)
 have pushed := mergeCut_spec data cut blocks size (by omega)
  (by rw [content]; congr 1; omega)
 rw [Nat.sub_add_cancel (by omega)] at pushed
 exact pushed

end Reassembler

end MyNotes.Cs144
