/-
Sequence numbers that wrap (lab 2).

An absolute sequence number is a natural number; on the wire it is reduced to 32
bits, counted from the zero point.  `unwrap` finds the absolute number nearest to
a checkpoint.
-/

import Mathlib.Tactic.Ring

namespace MyNotes.Cs144

open UInt32

structure Wrap32 where
 rawValue : UInt32
deriving DecidableEq

namespace Wrap32

def wrap (n : ℕ) (zeroPoint : Wrap32) : Wrap32 :=
 ⟨UInt32.ofNat ((n + zeroPoint.rawValue.toNat) % 2 ^ 32)⟩

/-- `operator+`; the offset is a 32-bit integer. -/
def add (self : Wrap32) (n : ℕ) : Wrap32 := ⟨self.rawValue + UInt32.ofNat n⟩

def unwrap (self zeroPoint : Wrap32) (checkpoint : ℕ) : ℕ :=
 let base := checkpoint >>> 32 <<< 32
 let value := (self.rawValue - zeroPoint.rawValue).toNat
 let wrappedValue := base ||| value
 if wrappedValue < checkpoint ∧ checkpoint - wrappedValue > 1 <<< 31 then
  wrappedValue + 1 <<< 32
 else if wrappedValue > checkpoint ∧ wrappedValue > 4294967295 ∧
  wrappedValue - checkpoint > 1 <<< 31 then
  wrappedValue - 1 <<< 32
 else wrappedValue

/-! ### The residue on the wire -/

/-- The distance from the zero point, the only thing the wire carries. -/
def offset (self zeroPoint : Wrap32) : ℕ := (self.rawValue - zeroPoint.rawValue).toNat

theorem offset_lt (self zeroPoint : Wrap32) : self.offset zeroPoint < 2 ^ 32 :=
 toNat_lt _

theorem offset_wrap (n : ℕ) (zeroPoint : Wrap32) :
 (wrap n zeroPoint).offset zeroPoint = n % 2 ^ 32 := by
 have zeroBound : zeroPoint.rawValue.toNat < 2 ^ 32 := UInt32.toNat_lt _
 simp only [offset, wrap, UInt32.toNat_sub, UInt32.toNat_ofNat']
 omega

theorem wrap_add (n m : ℕ) (zeroPoint : Wrap32) :
 (wrap n zeroPoint).add m = wrap (n + m) zeroPoint := by
 simp only [add, wrap, mk.injEq]
 apply UInt32.toNat_inj.mp
 simp only [UInt32.toNat_add, UInt32.toNat_ofNat']
 omega

theorem wrap_zero (zeroPoint : Wrap32) : wrap 0 zeroPoint = zeroPoint := by
 simp only [wrap, Nat.zero_add]
 simp

/-! ### The nearest absolute number -/

theorem unwrap_eq (self zeroPoint : Wrap32) (checkpoint : ℕ) :
 self.unwrap zeroPoint checkpoint =
  let wrappedValue := checkpoint / 2 ^ 32 * 2 ^ 32 + self.offset zeroPoint
  if checkpoint > wrappedValue + 2 ^ 31 then wrappedValue + 2 ^ 32
  else if 2 ^ 32 ≤ wrappedValue ∧ wrappedValue > checkpoint + 2 ^ 31 then
   wrappedValue - 2 ^ 32
  else wrappedValue := by
 have joined : checkpoint >>> 32 <<< 32 ||| self.offset zeroPoint =
  checkpoint / 2 ^ 32 * 2 ^ 32 + self.offset zeroPoint := by
  rw [← Nat.shiftLeft_add_eq_or_of_lt (self.offset_lt zeroPoint), Nat.shiftLeft_eq,
   Nat.shiftRight_eq_div_pow]
 have halves : (1 : ℕ) <<< 31 = 2 ^ 31 := by decide
 have wholes : (1 : ℕ) <<< 32 = 2 ^ 32 := by decide
 unfold unwrap
 dsimp only
 rw [show (self.rawValue - zeroPoint.rawValue).toNat = self.offset zeroPoint from rfl, joined,
  halves, wholes]
 by_cases up : checkpoint > checkpoint / 2 ^ 32 * 2 ^ 32 + self.offset zeroPoint + 2 ^ 31
 · rw [if_pos up, if_pos (by omega)]
 · rw [if_neg up, if_neg (by omega)]
   split <;> split <;> omega

theorem unwrap_wrap_mod (n : ℕ) (zeroPoint : Wrap32) (checkpoint : ℕ) :
 (wrap n zeroPoint).unwrap zeroPoint checkpoint % 2 ^ 32 = n % 2 ^ 32 := by
 rw [unwrap_eq, offset_wrap]
 dsimp only
 split
 · omega
 · split <;> omega

theorem unwrap_near (self zeroPoint : Wrap32) (checkpoint : ℕ) :
 checkpoint ≤ self.unwrap zeroPoint checkpoint + 2 ^ 31 ∧
  (self.unwrap zeroPoint checkpoint ≤ checkpoint + 2 ^ 31 ∨
   self.unwrap zeroPoint checkpoint < 2 ^ 32) := by
 have bound := self.offset_lt zeroPoint
 rw [unwrap_eq]
 dsimp only
 split
 · omega
 · split <;> omega

theorem unwrap_wrap (n : ℕ) (zeroPoint : Wrap32) (checkpoint : ℕ)
 (notBehind : checkpoint < n + 2 ^ 31) (notAhead : n < checkpoint + 2 ^ 31) :
 (wrap n zeroPoint).unwrap zeroPoint checkpoint = n := by
 have congruent := unwrap_wrap_mod n zeroPoint checkpoint
 have near := unwrap_near (wrap n zeroPoint) zeroPoint checkpoint
 omega

end Wrap32

end MyNotes.Cs144
