/-
A window on a list of slots that goes around the end of the list.

A ring buffer keeps its items in such a window: one is put behind the window and one is taken
from its start.
-/

import Mathlib.Data.List.Range
import Mathlib.Data.Nat.ModEq

namespace MyNotes.Library.RingBuffer

open List Nat

variable {Item : Type*} {slots : List Item} {first count : ℕ} {item : Item}

/-- The items in `count` slots from `first` on. -/
def window (slots : List Item) (first count : ℕ) : List Item :=
 (List.range count).filterMap fun offset => slots[(first + offset) % slots.length]?

theorem window_of_mod {other : ℕ} (same : first % slots.length = other % slots.length) :
 window slots first count = window slots other count := by
 refine filterMap_congr fun offset _ => ?_
 rw [add_mod, same, ← add_mod]

theorem window_concat (here : slots[(first + count) % slots.length]? = some item) :
 window slots first (count + 1) = window slots first count ++ [item] := by
 unfold window
 rw [range_succ, filterMap_append, filterMap_cons, here]
 rfl

theorem window_cons (here : slots[first % slots.length]? = some item) :
 window slots first (count + 1) = item :: window slots (first + 1) count := by
 unfold window
 rw [range_succ_eq_map, filterMap_cons, add_zero, here, filterMap_map]
 grind

theorem exists_slot (nonempty : 0 < slots.length) (index : ℕ) :
 ∃ item, slots[index % slots.length]? = some item :=
 ⟨_, getElem?_eq_getElem (mod_lt index nonempty)⟩

theorem window_length (nonempty : 0 < slots.length) :
 (window slots first count).length = count := by
 induction count with
 | zero => rfl
 | succ count ih =>
  obtain ⟨item, here⟩ := exists_slot nonempty (first + count)
  rw [window_concat here, length_append, ih]
  rfl

theorem offset_ne {offset : ℕ} (before : offset < count) (room : count < slots.length) :
 (first + offset) % slots.length ≠ (first + count) % slots.length := by
 intro same
 have close : Nat.ModEq slots.length offset count := Nat.ModEq.add_left_cancel' first same
 rw [Nat.ModEq, Nat.mod_eq_of_lt (Nat.lt_trans before room), Nat.mod_eq_of_lt room] at close
 exact Nat.ne_of_lt before close

theorem window_set (room : count < slots.length) :
 window (slots.set ((first + count) % slots.length) item) first count =
  window slots first count := by
 unfold window
 rw [length_set]
 refine filterMap_congr fun offset member => ?_
 exact getElem?_set_ne (offset_ne (mem_range.mp member) room).symm

theorem window_push (room : count < slots.length) :
 window (slots.set ((first + count) % slots.length) item) first (count + 1) =
  window slots first count ++ [item] := by
 have inside : (first + count) % slots.length < slots.length :=
  mod_lt _ (lt_of_le_of_lt (zero_le count) room)
 have here : (slots.set ((first + count) % slots.length) item)[(first + count) %
  (slots.set ((first + count) % slots.length) item).length]? = some item := by
  rw [length_set, getElem?_set_self inside]
 rw [window_concat here, window_set room]

end MyNotes.Library.RingBuffer
