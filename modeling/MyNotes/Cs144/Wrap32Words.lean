/-
`wrap` and `unwrap` of lab 2 in the machine's 64-bit words.
-/

import MyNotes.Cs144.Wrap32

namespace MyNotes.Cs144.Wrap32

open Nat

def wrapWord (n : UInt64) (zeroPoint : Wrap32) : Wrap32 :=
 ⟨((n + zeroPoint.rawValue.toUInt64) % ((1 : UInt64) <<< 32)).toUInt32⟩

def unwrapWord (self zeroPoint : Wrap32) (checkpoint : UInt64) : UInt64 :=
 let base := checkpoint &&& 0xFFFFFFFF00000000
 let value := (self.rawValue - zeroPoint.rawValue).toUInt64
 let wrappedValue := base ||| value
 if wrappedValue < checkpoint ∧ checkpoint - wrappedValue > (1 : UInt64) <<< 31 then
  wrappedValue + (1 : UInt64) <<< 32
 else if wrappedValue > checkpoint ∧ wrappedValue > 4294967295 ∧
  wrappedValue - checkpoint > (1 : UInt64) <<< 31 then
  wrappedValue - (1 : UInt64) <<< 32
 else wrappedValue

/-! ### Words and numbers -/

theorem wrapWord_eq (n : UInt64) (zeroPoint : Wrap32) :
 wrapWord n zeroPoint = wrap n.toNat zeroPoint := by
 simp only [wrapWord, wrap, mk.injEq]
 apply UInt32.toNat_inj.mp
 simp

theorem toNat_mask (checkpoint : UInt64) :
 (checkpoint &&& 0xFFFFFFFF00000000).toNat = checkpoint.toNat >>> 32 <<< 32 := by
 have mask : (0xFFFFFFFF00000000 : UInt64).toNat = (2 ^ 32 - 1) <<< 32 := by decide
 rw [UInt64.toNat_and, mask]
 refine Nat.eq_of_testBit_eq fun bit => ?_
 rw [Nat.testBit_and, Nat.testBit_shiftLeft, Nat.testBit_shiftLeft, Nat.testBit_two_pow_sub_one,
  Nat.testBit_shiftRight]
 by_cases low : bit < 32
 · grind
 · rw [decide_eq_true (Nat.le_of_not_lt low), Bool.true_and, Bool.true_and,
    show 32 + (bit - 32) = bit by omega]
   by_cases inside : bit - 32 < 32
   · rw [decide_eq_true inside, Bool.and_true]
   · have beyond : checkpoint.toNat.testBit bit = false :=
      Nat.testBit_lt_two_pow (Nat.lt_of_lt_of_le checkpoint.toNat_lt
       (Nat.pow_le_pow_right (by decide) (by omega)))
     rw [beyond, Bool.false_and]

theorem gap_iff {low high : UInt64} (less : low.toNat < high.toNat) :
 high - low > (1 : UInt64) <<< 31 ↔ high.toNat - low.toNat > 1 <<< 31 := by
 have halves : ((1 : UInt64) <<< 31).toNat = 1 <<< 31 := by decide
 rw [gt_iff_lt, UInt64.lt_iff_toNat_lt, halves,
  UInt64.toNat_sub_of_le _ _ (UInt64.le_iff_toNat_le.mpr (le_of_lt less))]

theorem toNat_unwrapWord (self zeroPoint : Wrap32) (checkpoint : UInt64) :
 (self.unwrapWord zeroPoint checkpoint).toNat =
  self.unwrap zeroPoint checkpoint.toNat % 2 ^ 64 := by
 have wholes : ((1 : UInt64) <<< 32).toNat = 1 <<< 32 := by decide
 have most : (4294967295 : UInt64).toNat = 4294967295 := by decide
 unfold unwrapWord unwrap
 dsimp only
 generalize joined : (checkpoint &&& 0xFFFFFFFF00000000 |||
  (self.rawValue - zeroPoint.rawValue).toUInt64) = wrapped
 have same : checkpoint.toNat >>> 32 <<< 32 ||| (self.rawValue - zeroPoint.rawValue).toNat =
  wrapped.toNat := by
  rw [← joined, UInt64.toNat_or, toNat_mask, UInt32.toNat_toUInt64]
 have bound := wrapped.toNat_lt
 have up : (wrapped < checkpoint ∧ checkpoint - wrapped > (1 : UInt64) <<< 31) ↔
  wrapped.toNat < checkpoint.toNat ∧ checkpoint.toNat - wrapped.toNat > 1 <<< 31 := by
  rw [UInt64.lt_iff_toNat_lt]
  exact and_congr_right gap_iff
 have down : (wrapped > checkpoint ∧ wrapped > 4294967295 ∧
  wrapped - checkpoint > (1 : UInt64) <<< 31) ↔ wrapped.toNat > checkpoint.toNat ∧
   wrapped.toNat > 4294967295 ∧ wrapped.toNat - checkpoint.toNat > 1 <<< 31 := by
  rw [gt_iff_lt, UInt64.lt_iff_toNat_lt, gt_iff_lt, UInt64.lt_iff_toNat_lt, most]
  exact and_congr_right fun less => and_congr_right fun _ => gap_iff less
 rw [same, if_congr up rfl (if_congr down rfl rfl)]
 split
 · rw [UInt64.toNat_add, wholes]
 · split
   · rename_i lower
     have fits : 1 <<< 32 ≤ wrapped.toNat := lower.2.1
     have less := UInt64.le_iff_toNat_le.mpr (wholes ▸ fits)
     rw [UInt64.toNat_sub_of_le _ _ less, wholes, mod_eq_of_lt (by omega)]
   · exact (mod_eq_of_lt bound).symm

/-! ### There and back -/

theorem unwrap_nearest (self zeroPoint : Wrap32) (checkpoint : ℕ) {m : ℕ}
 (wraps : wrap m zeroPoint = self) :
 ((self.unwrap zeroPoint checkpoint : ℤ) - checkpoint).natAbs ≤
  ((m : ℤ) - checkpoint).natAbs := by
 subst wraps
 have same := unwrap_wrap_mod m zeroPoint checkpoint
 have near := unwrap_near (wrap m zeroPoint) zeroPoint checkpoint
 omega

theorem wrap_of_mod {n : ℕ} {self zeroPoint : Wrap32}
 (same : n % 2 ^ 32 = self.offset zeroPoint) : wrap n zeroPoint = self := by
 obtain ⟨raw⟩ := self
 have bound : raw.toNat < 2 ^ 32 := UInt32.toNat_lt _
 have zeroBound : zeroPoint.rawValue.toNat < 2 ^ 32 := UInt32.toNat_lt _
 rw [offset, UInt32.toNat_sub] at same
 dsimp only at same
 simp only [wrap, mk.injEq]
 apply UInt32.toNat_inj.mp
 rw [UInt32.toNat_ofNat']
 omega

theorem wrap_unwrap (self zeroPoint : Wrap32) (checkpoint : ℕ) :
 wrap (self.unwrap zeroPoint checkpoint) zeroPoint = self := by
 have small := mod_eq_of_lt (self.offset_lt zeroPoint)
 have same : wrap (self.offset zeroPoint) zeroPoint = self := wrap_of_mod small
 have mod := unwrap_wrap_mod (self.offset zeroPoint) zeroPoint checkpoint
 rw [same, small] at mod
 exact wrap_of_mod mod

/-- A word comes back from 32 bits when the checkpoint is near, and otherwise the nearest number
does; in both cases the words do what the numbers would. -/
theorem unwrapWord_correct (zeroPoint : Wrap32) :
 (∀ n : UInt64, wrapWord n zeroPoint = wrap n.toNat zeroPoint) ∧
 (∀ n checkpoint : UInt64, ((n.toNat : ℤ) - checkpoint.toNat).natAbs < 2 ^ 31 →
  (wrapWord n zeroPoint).unwrapWord zeroPoint checkpoint = n ∧
   (wrap n.toNat zeroPoint).unwrap zeroPoint checkpoint.toNat = n.toNat) ∧
 ∀ (seqno : Wrap32) (checkpoint : UInt64), checkpoint.toNat < 2 ^ 63 →
  let r := seqno.unwrapWord zeroPoint checkpoint
  r.toNat = seqno.unwrap zeroPoint checkpoint.toNat ∧ wrapWord r zeroPoint = seqno ∧
   ∀ m : ℕ, wrap m zeroPoint = seqno →
    ((r.toNat : ℤ) - checkpoint.toNat).natAbs ≤ ((m : ℤ) - checkpoint.toNat).natAbs := by
 refine ⟨fun n => wrapWord_eq n zeroPoint, fun n checkpoint near => ?_,
  fun seqno checkpoint low => ?_⟩
 · have back : (wrap n.toNat zeroPoint).unwrap zeroPoint checkpoint.toNat = n.toNat :=
    unwrap_wrap n.toNat zeroPoint checkpoint.toNat (by omega) (by omega)
   refine ⟨UInt64.toNat_inj.mp ?_, back⟩
   rw [toNat_unwrapWord, wrapWord_eq, back, Nat.mod_eq_of_lt n.toNat_lt]
 · have fits : seqno.unwrap zeroPoint checkpoint.toNat < 2 ^ 64 := by
    have near := (unwrap_near seqno zeroPoint checkpoint.toNat).2
    omega
   have same : (seqno.unwrapWord zeroPoint checkpoint).toNat =
    seqno.unwrap zeroPoint checkpoint.toNat := by
    rw [toNat_unwrapWord, Nat.mod_eq_of_lt fits]
   dsimp only
   refine ⟨same, ?_, fun m wraps => ?_⟩
   · rw [wrapWord_eq, same, wrap_unwrap]
   · rw [same]
     exact unwrap_nearest seqno zeroPoint checkpoint.toNat wraps

end MyNotes.Cs144.Wrap32
