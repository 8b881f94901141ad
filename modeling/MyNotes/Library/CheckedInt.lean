/-
The `int` of 32 bits.  A result outside its range is a fault.
-/

import MyNotes.Library.Fallible

namespace MyNotes.Library.CheckedInt

open Fallible

def intMax : ℤ := 2147483647

def Fits (value : ℤ) : Prop := -2147483648 ≤ value ∧ value ≤ intMax

instance (value : ℤ) : Decidable (Fits value) := instDecidableAnd

def checked (value : ℤ) : Option ℤ := if Fits value then some value else none

/-- An `int` that is not negative. -/
def checkedNat (value : ℕ) : Option ℕ := if (value : ℤ) ≤ intMax then some value else none

variable {value result : ℤ} {size : ℕ}

theorem checked_eq (fits : Fits value) : checked value = some value := if_pos fits

theorem checked_eq_some_iff : checked value = some result ↔ Fits value ∧ result = value := by
 rw [checked]
 split
 · grind
 · simp_all

theorem checkedNat_eq (fits : (size : ℤ) ≤ intMax) : checkedNat size = some size := if_pos fits

theorem checkedNat_eq_none (outside : intMax < size) : checkedNat size = none :=
 if_neg (Int.not_le.mpr outside)

/-! ### With the kind of the fault -/

/-- A number that is no `int`, an index outside its array, or a loop that is not over after its
rounds. -/
inductive Fault where
 | overflow
 | index
 | unfinished

def toInt (value : ℤ) : Except Fault ℤ := if Fits value then .ok value else .error .overflow

theorem toInt_eq (fits : Fits value) : toInt value = .ok value := if_pos fits

theorem toInt_outcome {allowed : Fault → Prop} (outside : ¬ Fits value → allowed .overflow) :
 Outcome allowed (toInt value) (fun result => result = value ∧ Fits value) := by
 rw [toInt]
 split
 · rename_i fits
   exact Outcome.returned ⟨rfl, fits⟩
 · rename_i other
   exact Outcome.stopped (outside other)

end MyNotes.Library.CheckedInt
