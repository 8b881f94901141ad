/-
The low bits of a number, as remainders of powers of two.

A table of `2 ^ n` slots is indexed by the low `n` bits of a hash; these lemmas
say how the classes of numbers with the same low bits split and join.
-/

import Mathlib.Data.Nat.Bitwise
import Mathlib.Data.Finset.Card

namespace MyNotes.Library.LowBits

open Finset

variable {low high : ℕ}

theorem mod_mod_two_pow (number : ℕ) (le : low ≤ high) :
 number % 2 ^ high % 2 ^ low = number % 2 ^ low :=
 Nat.mod_mod_of_dvd number (pow_dvd_pow 2 le)

theorem agree_mono {first second : ℕ} (le : low ≤ high)
 (agree : first % 2 ^ high = second % 2 ^ high) : first % 2 ^ low = second % 2 ^ low := by
 rw [← mod_mod_two_pow first le, agree, mod_mod_two_pow second le]

theorem agree_of_both_differ {first second third : ℕ} (one : first % 2 ^ low = third % 2 ^ low)
 (two : second % 2 ^ low = third % 2 ^ low)
 (oneDiffers : first % 2 ^ (low + 1) ≠ third % 2 ^ (low + 1))
 (twoDiffers : second % 2 ^ (low + 1) ≠ third % 2 ^ (low + 1)) :
 first % 2 ^ (low + 1) = second % 2 ^ (low + 1) := by
 rw [Nat.mod_pow_succ, Nat.mod_pow_succ, one] at oneDiffers
 rw [Nat.mod_pow_succ, Nat.mod_pow_succ, two] at twoDiffers
 rw [Nat.mod_pow_succ, Nat.mod_pow_succ, one, two]
 have bitOne := Nat.mod_two_eq_zero_or_one (first / 2 ^ low)
 have bitTwo := Nat.mod_two_eq_zero_or_one (second / 2 ^ low)
 have bitThree := Nat.mod_two_eq_zero_or_one (third / 2 ^ low)
 grind

variable {number : ℕ}

theorem eq_or_eq_add {member : ℕ} (bound : number < 2 ^ (low + 1)) (small : member < 2 ^ low)
 (agree : number % 2 ^ low = member % 2 ^ low) :
 number = member ∨ number = member + 2 ^ low := by
 rw [Nat.mod_eq_of_lt small] at agree
 rw [pow_succ] at bound
 have parts := Nat.div_add_mod number (2 ^ low)
 rw [agree] at parts
 have quotient : number / 2 ^ low < 2 := by
  apply Nat.div_lt_of_lt_mul
  exact bound
 have cases := Nat.mod_two_eq_zero_or_one (number / 2 ^ low)
 rw [Nat.mod_eq_of_lt quotient] at cases
 rcases cases with zero | one
 · rw [zero, Nat.mul_zero] at parts
   omega
 · rw [one, Nat.mul_one] at parts
   omega

/-! ### The slot across the highest local bit -/

theorem flip_mod_low (number low : ℕ) :
 (number ^^^ 2 ^ low) % 2 ^ low = number % 2 ^ low := by
 rw [Nat.xor_mod_two_pow, Nat.mod_self, Nat.xor_zero]

theorem flip_mod_ne (number low : ℕ) :
 (number ^^^ 2 ^ low) % 2 ^ (low + 1) ≠ number % 2 ^ (low + 1) := by
 have small : 2 ^ low < 2 ^ (low + 1) := Nat.pow_lt_pow_succ (by omega)
 rw [Nat.xor_mod_two_pow, Nat.mod_eq_of_lt small]
 intro same
 have twice := congrArg (number % 2 ^ (low + 1) ^^^ ·) same
 grind

theorem flip_lt (bound : number < 2 ^ high) (lt : low < high) :
 number ^^^ 2 ^ low < 2 ^ high :=
 Nat.xor_lt_two_pow bound (Nat.pow_lt_pow_right (by omega) lt)

theorem exists_shift_add {rest : ℕ} (le : low ≤ high) (small : rest < 2 ^ low) :
 (∃ i < 2 ^ (high - low), number = i * 2 ^ low + rest) ↔
  number < 2 ^ high ∧ number % 2 ^ low = rest := by
 have whole : 2 ^ high = 2 ^ (high - low) * 2 ^ low := by
  rw [← pow_add, Nat.sub_add_cancel le]
 constructor
 · intro ⟨i, below, same⟩
   rw [same, whole]
   refine ⟨?_, ?_⟩
   · calc i * 2 ^ low + rest < i * 2 ^ low + 2 ^ low := by omega
      _ = (i + 1) * 2 ^ low := by rw [Nat.add_mul, Nat.one_mul]
      _ ≤ 2 ^ (high - low) * 2 ^ low := Nat.mul_le_mul_right _ below
   · rw [Nat.add_comm, Nat.add_mul_mod_self_right, Nat.mod_eq_of_lt small]
 · intro ⟨below, agree⟩
   refine ⟨number / 2 ^ low, ?_, ?_⟩
   · rw [Nat.div_lt_iff_lt_mul (Nat.two_pow_pos low), ← whole]
     exact below
   · rw [← agree, Nat.mul_comm, Nat.div_add_mod]

theorem card_class {rest : ℕ} (le : low ≤ high) (small : rest < 2 ^ low) :
 ((range (2 ^ high)).filter fun number => number % 2 ^ low = rest).card =
  2 ^ (high - low) := by
 have members : (range (2 ^ high)).filter (fun number => number % 2 ^ low = rest) =
  (range (2 ^ (high - low))).image fun i => i * 2 ^ low + rest := by
  ext number
  rw [mem_filter, mem_range, ← exists_shift_add le small, mem_image]
  constructor
  · simp_all
  · intro ⟨i, below, same⟩
    exact ⟨i, mem_range.mp below, same.symm⟩
 rw [members, card_image_of_injective, card_range]
 intro first second same
 simp_all

end MyNotes.Library.LowBits
