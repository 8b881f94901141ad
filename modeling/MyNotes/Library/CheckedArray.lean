/-
Arrays with checked indices.
-/

import Mathlib.Data.Int.Notation
import Mathlib.Data.Nat.Notation

namespace MyNotes.Library.CheckedArray

variable {α : Type*}

/-- `table[index] = value;`. -/
def store (table : List α) (index : ℕ) (value : α) : Option (List α) :=
 if index < table.length then some (table.set index value) else none

/-- An element by an `int`. -/
def load (table : List α) (index : ℤ) : Option α :=
 if 0 ≤ index then table[index.toNat]? else none

theorem store_eq {table : List α} {index : ℕ} {value : α} (inside : index < table.length) :
 store table index value = some (table.set index value) := if_pos inside

theorem load_natCast (table : List α) (index : ℕ) : load table index = table[index]? := by
 rw [load, if_pos (Int.natCast_nonneg index), Int.toNat_natCast]

end MyNotes.Library.CheckedArray
