/-
Segments of an indexed stream.

A stream assigns a symbol to every index.  A segment is the list of symbols of
an index range.  The lemmas say how segments are cut, joined and copied into a
buffer.
-/

import Mathlib.Tactic.Ring

namespace MyNotes.Library.Segment

open List

variable {α : Type*}

def segment (stream : ℕ → α) (first length : ℕ) : List α :=
 (List.range' first length).map stream

section

variable (stream : ℕ → α)

@[simp] theorem segment_length (first length : ℕ) :
 (segment stream first length).length = length := by
 simp [segment]

@[simp] theorem segment_zero (first : ℕ) :
 segment stream first 0 = [] := rfl

theorem segment_getElem? (first length index : ℕ) :
 (segment stream first length)[index]? =
  if index < length then some (stream (first + index)) else none := by
 unfold segment
 split
 · simp_all
 · rename_i outside
   rw [getElem?_eq_none (by simpa using outside)]

theorem segment_append (first left right : ℕ) :
 segment stream first left ++ segment stream (first + left) right =
  segment stream first (left + right) := by
 unfold segment
 rw [← map_append, range'_append_1]

end

variable {stream : ℕ → α} {items : List α} {first : ℕ}

theorem append_segment {last : ℕ} (content : items = segment stream first items.length)
 (within : first + items.length ≤ last) :
 items ++ segment stream (first + items.length) (last - (first + items.length)) =
  segment stream first (last - first) := by
 calc
  items ++ segment stream (first + items.length) (last - (first + items.length))
   = segment stream first items.length ++
    segment stream (first + items.length) (last - (first + items.length)) :=
   congrArg (· ++ _) content
  _ = segment stream first (last - first) := by
   rw [segment_append]
   congr 1
   omega

theorem segment_take (stream : ℕ → α) (first length count : ℕ) :
 (segment stream first length).take count =
  segment stream first (min count length) := by
 apply ext_getElem?
 intro index
 rw [getElem?_take]
 simp only [segment_getElem?, lt_min_iff]
 by_cases low : index < count <;> simp [low]

theorem segment_drop (stream : ℕ → α) (first length count : ℕ) :
 (segment stream first length).drop count =
  segment stream (first + count) (length - count) := by
 apply ext_getElem?
 intro index
 rw [getElem?_drop]
 simp only [segment_getElem?]
 by_cases inside : count + index < length
 · rw [if_pos inside, if_pos (by omega), Nat.add_assoc]
 · rw [if_neg inside, if_neg (by omega)]

variable {length : ℕ}

theorem eq_segment_of_getElem? (size : items.length = length)
 (content : ∀ index < length, items[index]? = some (stream (first + index))) :
 items = segment stream first length := by
 apply ext_getElem?
 intro index
 rw [segment_getElem?]
 split
 · rename_i inside
   exact content index inside
 · rename_i outside
   exact getElem?_eq_none (by omega)

theorem slice_eq_segment (items : List α) (rest : α) (within : first + length ≤ items.length) :
 (items.drop first).take length = segment (fun index => items.getD index rest) first length := by
 refine eq_segment_of_getElem? (by rw [length_take, length_drop]; omega) ?_
 intro index inside
 rw [getElem?_take_of_lt inside, getElem?_drop, getD_eq_getElem?_getD,
  getElem?_eq_getElem (by omega), Option.getD_some]

/-! ### Copying into a buffer -/

/-- Overwrite the items from `offset` on with `source`. -/
def copyAt (target : List α) (offset : ℕ) (source : List α) : List α :=
 target.take offset ++ source ++ target.drop (offset + source.length)

theorem copyAt_length (target source : List α) (offset : ℕ)
 (fits : offset + source.length ≤ target.length) :
 (copyAt target offset source).length = target.length := by
 simp only [copyAt, length_append, length_take, length_drop]
 omega

theorem copyAt_getElem? {target source : List α} {offset : ℕ}
 (fits : offset + source.length ≤ target.length) (index : ℕ) :
 (copyAt target offset source)[index]? =
  if offset ≤ index ∧ index < offset + source.length then
   source[index - offset]?
  else target[index]? := by
 have takeLength : (target.take offset).length = offset := by
  rw [length_take]
  omega
 unfold copyAt
 by_cases below : index < offset
 · rw [if_neg (by omega), append_assoc,
    getElem?_append_left (by omega), getElem?_take_of_lt below]
 · by_cases inside : index < offset + source.length
   · rw [if_pos ⟨by omega, inside⟩, append_assoc,
      getElem?_append_right (by omega),
      getElem?_append_left (by omega), takeLength]
   · rw [if_neg (by omega), getElem?_append_right (by
      simp_all),
      getElem?_drop, length_append, takeLength]
     congr 1
     omega

/-- The buffer, placed at `base`, has the stream's symbols on a set of indices. -/
def Filled (stream : ℕ → α) (base : ℕ) (items : List α) (known : ℕ → Prop) : Prop :=
 ∀ index < items.length, known (base + index) →
  items[index]? = some (stream (base + index))

theorem Filled.copyAt {base : ℕ} {known : ℕ → Prop} (filled : Filled stream base items known)
 (above : base ≤ first) (fits : first + length ≤ base + items.length) :
 Filled stream base
  (copyAt items (first - base) (segment stream first length))
  (fun index => known index ∨ (first ≤ index ∧ index < first + length)) := by
 have room : first - base + (segment stream first length).length ≤ items.length := by
  rw [segment_length]
  omega
 intro index inside covered
 rw [copyAt_length _ _ _ room] at inside
 rw [copyAt_getElem? room, segment_length]
 by_cases copied : first - base ≤ index ∧ index < first - base + length
 · rw [if_pos copied, segment_getElem?, if_pos (by omega)]
   congr 2
   omega
 · rw [if_neg copied]
   rcases covered with old | new
   · exact filled index inside old
   · exact absurd ⟨by omega, by omega⟩ copied

theorem Filled.eq_segment {base : ℕ} {known : ℕ → Prop} (filled : Filled stream base items known)
 (complete : ∀ index, base ≤ index → index < base + items.length → known index) :
 items = segment stream base items.length :=
 eq_segment_of_getElem? rfl fun index inside =>
  filled index inside (complete _ (by omega) (by omega))

end MyNotes.Library.Segment
