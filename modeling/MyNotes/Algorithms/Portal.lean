/-
The farthest position from the start when the position may be reversed once: the quadratic loop,
the dynamic program and the prefix sums.
-/

import MyNotes.Library.CheckedInt
import Mathlib.Algebra.Order.Ring.Int
import Mathlib.Algebra.Order.Group.Abs

namespace MyNotes.Algorithms.Portal

open Library.CheckedInt Option List

/-! ### The positions -/

def sums (a : List ℤ) : ℕ → ℤ
 | 0 => 0
 | i + 1 => sums a i + a.getD i 0

/-- The positions after `i` moves, without a reversal or with one after `k` moves. -/
def Visited (a : List ℤ) (x : ℤ) : Prop :=
 ∃ i ≤ a.length, x = (a.take i).sum ∨ ∃ k ≤ i, x = -(a.take k).sum + ((a.take i).drop k).sum

def IsLargest (a : List ℤ) (m : ℤ) : Prop :=
 (∃ x, Visited a x ∧ |x| = m) ∧ ∀ x, Visited a x → |x| ≤ m

/-! ### The quadratic loop, with `int` -/

def suffixLoop : List ℤ → ℤ → ℤ → Option ℤ
 | [], _, res => some res
 | v :: moves, pos, res =>
  (checked (pos + v)).bind fun pos => (checked |pos|).bind fun far =>
   suffixLoop moves pos (max res far)

def bruteLoop : List ℤ → ℤ → ℤ → Option ℤ
 | [], _, res => some res
 | v :: moves, pre, res =>
  (checked (pre + v)).bind fun pre => (checked (-pre)).bind fun pos =>
   (checked |pos|).bind fun far =>
    (suffixLoop moves pos (max res far)).bind fun res => bruteLoop moves pre res

def bruteForce (a : List ℤ) : Option ℤ := bruteLoop a 0 0

/-! ### The dynamic program, with `long long` -/

/-- `dp[i][j][k]`, with `j` for the reversal and `k` for the minimum or the maximum. -/
structure Row where
 straightMin : ℤ
 straightMax : ℤ
 reversedMin : ℤ
 reversedMax : ℤ

/-- `dp[i - 1][1][0]` stands twice in both lists. -/
def Row.next (row : Row) (v : ℤ) : Row where
 straightMin := row.straightMin + v
 straightMax := row.straightMax + v
 reversedMin := min (-row.straightMin + v) (min (-row.straightMax + v)
  (min (row.reversedMin + v) (row.reversedMin + v)))
 reversedMax := max (-row.straightMin + v) (max (-row.straightMax + v)
  (max (row.reversedMin + v) (row.reversedMin + v)))

def rows (a : List ℤ) : ℕ → Row
 | 0 => ⟨0, 0, 0, 0⟩
 | i + 1 => (rows a i).next (a.getD i 0)

def farthest (row : ℕ → Row) : ℕ → ℤ → ℤ
 | 0, res => res
 | count + 1, res =>
  let res := farthest row count res
  max (max (max (max res |(row count).straightMin|) |(row count).straightMax|)
   |(row count).reversedMin|) |(row count).reversedMax|

/-- The result is converted to `int`. -/
def help2_2 (a : List ℤ) : ℤ := (farthest (rows a) (a.length + 1) 0).bmod 4294967296

/-! ### The prefix sums, with `long long` -/

def preMax (sums : ℕ → ℤ) : ℕ → ℤ
 | 0 => |sums 0|
 | i + 1 => max (preMax sums i) |sums (i + 1)|

/-- The suffix that starts so many places before the end. -/
def suffix (pick : ℤ → ℤ → ℤ) (sums : ℕ → ℤ) (n : ℕ) : ℕ → ℤ
 | 0 => sums n
 | left + 1 => pick (sums (n - (left + 1))) (suffix pick sums n left)

def maxDistanceLoop (sums : ℕ → ℤ) (n : ℕ) : ℕ → ℤ
 | 0 => preMax sums n
 | k + 1 =>
  let ans := maxDistanceLoop sums n k
  let candidate1 := |suffix max sums n (n - k) - 2 * sums k|
  let candidate2 := |suffix min sums n (n - k) - 2 * sums k|
  let temp := max (preMax sums k) (max candidate1 candidate2)
  if temp > ans then temp else ans

def maxDistance (a : List ℤ) : ℤ := maxDistanceLoop (sums a) a.length (a.length + 1)

/-! ### Upper bounds -/

/-- No position after a reversal is farther than the bound. -/
def Within (a : List ℤ) (bound : ℤ) : Prop :=
 ∀ i ≤ a.length, ∀ k ≤ i, |sums a i - 2 * sums a k| ≤ bound

theorem sums_eq (a : List ℤ) (i : ℕ) : sums a i = (a.take i).sum := by
 induction i with
 | zero => rfl
 | succ i ih =>
  rw [sums, ih, List.take_add_one, List.sum_append]
  cases found : a[i]? with
  | none => simp [List.getD, found]
  | some v => simp [List.getD, found]

variable {a : List ℤ}

theorem visited_iff {x : ℤ} : Visited a x ↔
 ∃ i ≤ a.length, x = sums a i ∨ ∃ k ≤ i, x = sums a i - 2 * sums a k := by
 have split : ∀ i k, k ≤ i → -(a.take k).sum + ((a.take i).drop k).sum =
  sums a i - 2 * sums a k := by
  intro i k before
  have whole := congrArg sum (take_append_drop k (a.take i))
  rw [sum_append, take_take, Nat.min_eq_left before] at whole
  rw [sums_eq, sums_eq]
  omega
 constructor
 · rintro ⟨i, inside, rfl | ⟨k, before, rfl⟩⟩
   · exact ⟨i, inside, .inl (sums_eq a i).symm⟩
   · exact ⟨i, inside, .inr ⟨k, before, split i k before⟩⟩
 · rintro ⟨i, inside, rfl | ⟨k, before, rfl⟩⟩
   · exact ⟨i, inside, .inl (sums_eq a i)⟩
   · exact ⟨i, inside, .inr ⟨k, before, (split i k before).symm⟩⟩

variable {bound : ℤ}

theorem within_iff : Within a bound ↔ ∀ x, Visited a x → |x| ≤ bound := by
 constructor
 · rintro within x visited
   obtain ⟨i, inside, rfl | ⟨k, before, rfl⟩⟩ := visited_iff.mp visited
   · have := within i inside i le_rfl
     rwa [show sums a i - 2 * sums a i = -sums a i by omega, abs_neg] at this
   · exact within i inside k before
 · intro bounds i inside k before
   exact bounds _ (visited_iff.mpr ⟨i, inside, .inr ⟨k, before, rfl⟩⟩)

/-! ### The prefix sums are right -/

theorem preMax_le_iff {sums : ℕ → ℤ} {n : ℕ} :
 preMax sums n ≤ bound ↔ ∀ i ≤ n, |sums i| ≤ bound := by
 induction n with
 | zero => simp [preMax]
 | succ n ih =>
  rw [preMax, max_le_iff, ih]
  constructor
  · rintro ⟨earlier, last⟩ i inside
    rcases Nat.le_succ_iff.mp inside with inside | rfl
    · exact earlier i inside
    · exact last
  · exact fun all => ⟨fun i inside => all i (by omega), all (n + 1) le_rfl⟩

theorem suffix_le_iff {sums : ℕ → ℤ} {n left : ℕ} (inside : left ≤ n) :
 (suffix max sums n left ≤ bound ↔ ∀ i ≤ n, n - left ≤ i → sums i ≤ bound) ∧
  (bound ≤ suffix min sums n left ↔ ∀ i ≤ n, n - left ≤ i → bound ≤ sums i) := by
 induction left with
 | zero =>
  have only : ∀ i ≤ n, n - 0 ≤ i → i = n := by omega
  exact ⟨⟨fun last i upper lower => only i upper lower ▸ last, fun all => all n le_rfl le_rfl⟩,
   fun last i upper lower => only i upper lower ▸ last, fun all => all n le_rfl le_rfl⟩
 | succ left ih =>
  obtain ⟨most, least⟩ := ih (by omega)
  rw [suffix, suffix, max_le_iff, le_min_iff, most, least]
  constructor <;> constructor
  · rintro ⟨first, later⟩ i upper lower
    rcases Nat.eq_or_lt_of_le lower with rfl | lower
    · exact first
    · exact later i upper (by omega)
  · exact fun all => ⟨all _ (by omega) le_rfl, fun i upper lower => all i upper (by omega)⟩
  · rintro ⟨first, later⟩ i upper lower
    rcases Nat.eq_or_lt_of_le lower with rfl | lower
    · exact first
    · exact later i upper (by omega)
  · exact fun all => ⟨all _ (by omega) le_rfl, fun i upper lower => all i upper (by omega)⟩

/-- The extremes of a suffix bound all its positions. -/
theorem candidates_le_iff {sums : ℕ → ℤ} {n k : ℕ} (inside : k ≤ n) :
 max |suffix max sums n (n - k) - 2 * sums k| |suffix min sums n (n - k) - 2 * sums k| ≤ bound ↔
  ∀ i ≤ n, k ≤ i → |sums i - 2 * sums k| ≤ bound := by
 have first : n - (n - k) = k := by omega
 have most : ∀ bound, suffix max sums n (n - k) ≤ bound ↔ _ :=
  fun bound => (suffix_le_iff (Nat.sub_le n k)).1
 have least : ∀ bound, bound ≤ suffix min sums n (n - k) ↔ _ :=
  fun bound => (suffix_le_iff (Nat.sub_le n k)).2
 have above := (most _).mp le_rfl k inside (by omega)
 have below := (least _).mp le_rfl k inside (by omega)
 have upper := most (2 * sums k + bound)
 have lower := least (2 * sums k - bound)
 rw [first] at upper lower
 rw [max_le_iff, abs_le, abs_le]
 constructor
 · rintro ⟨high, low⟩ i last start
   have := upper.mp (by omega) i last start
   have := lower.mp (by omega) i last start
   rw [abs_le]
   omega
 · intro all
   have := upper.mpr fun i last start => by
    have := abs_le.mp (all i last start)
    omega
   have := lower.mpr fun i last start => by
    have := abs_le.mp (all i last start)
    omega
   omega

theorem maxDistance_le_iff : maxDistance a ≤ bound ↔ Within a bound := by
 have loop : ∀ count ≤ a.length + 1, maxDistanceLoop (sums a) a.length count ≤ bound ↔
  (∀ i ≤ a.length, |sums a i| ≤ bound) ∧
   ∀ k < count, ∀ i ≤ a.length, k ≤ i → |sums a i - 2 * sums a k| ≤ bound := by
  intro count
  induction count with
  | zero => simp [maxDistanceLoop, preMax_le_iff]
  | succ k ih =>
   intro inside
   have turn : maxDistanceLoop (sums a) a.length (k + 1) =
    max (maxDistanceLoop (sums a) a.length k) (max (preMax (sums a) k)
     (max |suffix max (sums a) a.length (a.length - k) - 2 * sums a k|
      |suffix min (sums a) a.length (a.length - k) - 2 * sums a k|)) := by
    rw [maxDistanceLoop]
    split <;> omega
   rw [turn, max_le_iff, max_le_iff, ih (by omega), candidates_le_iff (by omega),
    preMax_le_iff]
   constructor
   · rintro ⟨⟨straight, earlier⟩, -, last⟩
     refine ⟨straight, fun other before => ?_⟩
     rcases Nat.lt_succ_iff_lt_or_eq.mp before with before | rfl
     · exact earlier other before
     · exact last
   · rintro ⟨straight, all⟩
     exact ⟨⟨straight, fun other before => all other (by omega)⟩,
      fun i before => straight i (by omega), all k (by omega)⟩
 rw [maxDistance, loop _ le_rfl]
 constructor
 · rintro ⟨-, all⟩ i inside k before
   exact all k (by omega) i inside before
 · intro within
   refine ⟨fun i inside => ?_, fun k _ i inside before => within i inside k before⟩
   have := within i inside i le_rfl
   rwa [show sums a i - 2 * sums a i = -sums a i by omega, abs_neg] at this

/-! ### What the dynamic program keeps -/

def highest (a : List ℤ) : ℕ → ℤ
 | 0 => 0
 | i + 1 => max (sums a i) (highest a i)

/-- The positions that the program looks at: without a reversal, with one before the last move, and
with one at the highest position before that. -/
def Tracked (a : List ℤ) (y : ℤ) : Prop :=
 ∃ i ≤ a.length, y = sums a i ∨ ∃ j, i = j + 1 ∧
  (y = sums a i - 2 * sums a j ∨ y = sums a i - 2 * highest a j)

theorem rows_eq (a : List ℤ) (i : ℕ) :
 (rows a i).straightMin = sums a i ∧ (rows a i).straightMax = sums a i ∧
  (rows a i).reversedMin = sums a i - 2 * highest a i ∧
  (rows a i).reversedMax =
   match i with
   | 0 => 0
   | j + 1 => sums a i - 2 * min (sums a j) (highest a j) := by
 induction i with
 | zero => exact ⟨rfl, rfl, rfl, rfl⟩
 | succ i ih =>
  obtain ⟨straightMin, straightMax, reversedMin, -⟩ := ih
  simp only [rows, Row.next, straightMin, straightMax, reversedMin, sums, highest]
  refine ⟨trivial, trivial, ?_, ?_⟩ <;> omega

theorem row_le_iff {i : ℕ} :
 |(rows a i).straightMin| ≤ bound ∧ |(rows a i).straightMax| ≤ bound ∧
  |(rows a i).reversedMin| ≤ bound ∧ |(rows a i).reversedMax| ≤ bound ↔
  |sums a i| ≤ bound ∧ ∀ j, i = j + 1 →
   |sums a i - 2 * sums a j| ≤ bound ∧ |sums a i - 2 * highest a j| ≤ bound := by
 obtain ⟨straightMin, straightMax, reversedMin, reversedMax⟩ := rows_eq a i
 rw [straightMin, straightMax, reversedMin, reversedMax]
 cases i with
 | zero => simp [sums, highest]
 | succ i =>
  have both : ∀ claim : ℕ → Prop, (∀ j, i + 1 = j + 1 → claim j) ↔ claim i := fun claim =>
   ⟨fun all => all i rfl, fun holds j same => Nat.succ.inj same ▸ holds⟩
  rw [both fun j => |sums a (i + 1) - 2 * sums a j| ≤ bound ∧
   |sums a (i + 1) - 2 * highest a j| ≤ bound, highest]
  simp only [abs_le]
  omega

theorem farthest_le_iff :
 farthest (rows a) (a.length + 1) 0 ≤ bound ↔ ∀ y, Tracked a y → |y| ≤ bound := by
 have loop : ∀ count, farthest (rows a) count 0 ≤ bound ↔ 0 ≤ bound ∧ ∀ i < count,
  |(rows a i).straightMin| ≤ bound ∧ |(rows a i).straightMax| ≤ bound ∧
   |(rows a i).reversedMin| ≤ bound ∧ |(rows a i).reversedMax| ≤ bound := by
  intro count
  induction count with
  | zero => simp [farthest]
  | succ count ih =>
   rw [farthest]
   simp only [max_le_iff, ih, Nat.lt_succ_iff_lt_or_eq, or_imp, forall_and, forall_eq]
   tauto
 rw [loop]
 simp only [row_le_iff]
 constructor
 · rintro ⟨-, all⟩ y ⟨i, inside, rfl | ⟨j, rfl, rfl | rfl⟩⟩
   · exact (all i (by omega)).1
   · exact ((all _ (by omega)).2 j rfl).1
   · exact ((all _ (by omega)).2 j rfl).2
 · intro all
   refine ⟨(abs_nonneg _).trans (all 0 ⟨0, Nat.zero_le _, .inl rfl⟩), fun i inside => ?_⟩
   refine ⟨all _ ⟨i, by omega, .inl rfl⟩, fun j same => ?_⟩
   exact ⟨all _ ⟨i, by omega, .inr ⟨j, same, .inl rfl⟩⟩,
    all _ ⟨i, by omega, .inr ⟨j, same, .inr rfl⟩⟩⟩

theorem exists_highest (a : List ℤ) (i : ℕ) : ∃ k ≤ i, highest a i = sums a k := by
 induction i with
 | zero => exact ⟨0, le_rfl, rfl⟩
 | succ i ih =>
  obtain ⟨k, before, same⟩ := ih
  rw [highest]
  rcases max_choice (sums a i) (highest a i) with first | second
  · exact ⟨i, by omega, first⟩
  · exact ⟨k, by omega, second.trans same⟩

theorem Tracked.visited {y : ℤ} (tracked : Tracked a y) : Visited a y := by
 obtain ⟨i, inside, rfl | ⟨j, rfl, rfl | rfl⟩⟩ := tracked
 · exact visited_iff.mpr ⟨i, inside, .inl rfl⟩
 · exact visited_iff.mpr ⟨j + 1, inside, .inr ⟨j, by omega, rfl⟩⟩
 · obtain ⟨k, before, same⟩ := exists_highest a j
   exact visited_iff.mpr ⟨j + 1, inside, .inr ⟨k, by omega, by rw [same]⟩⟩

/-! ### The quadratic loop is right where it does not overflow -/

/-- All positions of the moves from there on are within the bound. -/
def Along : List ℤ → ℤ → ℤ → Prop
 | [], _, _ => True
 | v :: moves, pos, bound => |pos + v| ≤ bound ∧ Along moves (pos + v) bound

def Everywhere : List ℤ → ℤ → ℤ → Prop
 | [], _, _ => True
 | v :: moves, pre, bound =>
  |pre + v| ≤ bound ∧ Along moves (-(pre + v)) bound ∧ Everywhere moves (pre + v) bound

theorem fits_iff {value : ℤ} : |value| ≤ intMax ↔ Fits value ∧ Fits |value| := by
 have := neg_abs_le value
 have := le_abs_self value
 unfold Fits intMax
 omega

variable {moves : List ℤ}

theorem suffixLoop_spec {pos res : ℤ} :
 (Along moves pos intMax → ∃ m, suffixLoop moves pos res = some m) ∧
  ∀ m, suffixLoop moves pos res = some m →
   Along moves pos intMax ∧ ∀ bound, m ≤ bound ↔ res ≤ bound ∧ Along moves pos bound := by
 induction moves generalizing pos res with
 | nil => exact ⟨fun _ => ⟨res, rfl⟩, fun m same => by cases same; simp [Along]⟩
 | cons v moves ih =>
  constructor
  · rintro ⟨near, later⟩
    obtain ⟨fits, fitsAbs⟩ := fits_iff.mp near
    rw [suffixLoop, checked_eq fits, bind_some, checked_eq fitsAbs]
    exact ih.1 later
  · intro m run
    rw [suffixLoop] at run
    obtain ⟨_, moved, measured⟩ := bind_eq_some_iff.mp run
    obtain ⟨_, taken, rest⟩ := bind_eq_some_iff.mp measured
    obtain ⟨fits, rfl⟩ := checked_eq_some_iff.mp moved
    obtain ⟨fitsAbs, rfl⟩ := checked_eq_some_iff.mp taken
    obtain ⟨later, bounds⟩ := ih.2 m rest
    refine ⟨⟨fits_iff.mpr ⟨fits, fitsAbs⟩, later⟩, fun bound => ?_⟩
    rw [bounds, max_le_iff, Along, and_assoc]

theorem bruteLoop_spec {pre res : ℤ} :
 (Everywhere moves pre intMax → ∃ m, bruteLoop moves pre res = some m) ∧
  ∀ m, bruteLoop moves pre res = some m → Everywhere moves pre intMax ∧
   ∀ bound, m ≤ bound ↔ res ≤ bound ∧ Everywhere moves pre bound := by
 induction moves generalizing pre res with
 | nil => exact ⟨fun _ => ⟨res, rfl⟩, fun m same => by cases same; simp [Everywhere]⟩
 | cons v moves ih =>
  constructor
  · rintro ⟨near, along, later⟩
    have back : |-(pre + v)| ≤ intMax := (abs_neg _).trans_le near
    obtain ⟨fitsBack, fitsAbs⟩ := fits_iff.mp back
    rw [bruteLoop, checked_eq (fits_iff.mp near).1, bind_some, checked_eq fitsBack,
     bind_some, checked_eq fitsAbs, bind_some]
    obtain ⟨m, run⟩ : ∃ m, suffixLoop moves (-(pre + v)) (max res |-(pre + v)|) = some m :=
     suffixLoop_spec.1 along
    rw [run]
    exact ih.1 later
  · intro m run
    rw [bruteLoop] at run
    obtain ⟨_, moved, reversed⟩ := bind_eq_some_iff.mp run
    obtain ⟨_, turned, measured⟩ := bind_eq_some_iff.mp reversed
    obtain ⟨_, taken, inner⟩ := bind_eq_some_iff.mp measured
    obtain ⟨between, walked, rest⟩ := bind_eq_some_iff.mp inner
    obtain ⟨-, rfl⟩ := checked_eq_some_iff.mp moved
    obtain ⟨fits, rfl⟩ := checked_eq_some_iff.mp turned
    obtain ⟨fitsAbs, rfl⟩ := checked_eq_some_iff.mp taken
    obtain ⟨along, nearBounds⟩ := suffixLoop_spec.2 between walked
    obtain ⟨later, bounds⟩ := ih.2 m rest
    refine ⟨⟨(abs_neg (pre + v)).ge.trans (fits_iff.mpr ⟨fits, fitsAbs⟩), along, later⟩,
     fun bound => ?_⟩
    rw [bounds, nearBounds, max_le_iff, abs_neg, Everywhere, and_assoc, and_assoc]

theorem sums_cons (v : ℤ) (moves : List ℤ) (i : ℕ) :
 sums (v :: moves) (i + 1) = v + sums moves i := by
 induction i with
 | zero => simp [sums]
 | succ i ih =>
  rw [sums, ih, sums, getD_cons_succ, add_assoc]

theorem sums_zero (moves : List ℤ) : sums moves 0 = 0 := rfl

theorem along_iff {pos : ℤ} :
 Along moves pos bound ↔ ∀ i < moves.length, |pos + sums moves (i + 1)| ≤ bound := by
 induction moves generalizing pos with
 | nil => simp [Along]
 | cons v moves ih =>
  rw [Along, ih, length_cons, Nat.forall_lt_succ_left]
  simp only [sums_cons, sums_zero, add_zero, add_assoc pos v]

theorem everywhere_iff {pre : ℤ} :
 Everywhere moves pre bound ↔ ∀ k < moves.length, ∀ i < moves.length, k ≤ i →
  |pre + sums moves (i + 1) - 2 * (pre + sums moves (k + 1))| ≤ bound := by
 induction moves generalizing pre with
 | nil => simp [Everywhere]
 | cons v moves ih =>
  have here : pre + v - 2 * (pre + v) = -(pre + v) := by omega
  have later : ∀ i, pre + (v + sums moves (i + 1)) - 2 * (pre + v) =
   -(pre + v) + sums moves (i + 1) := by omega
  rw [Everywhere, ih, along_iff, length_cons, Nat.forall_lt_succ_left]
  simp only [Nat.forall_lt_succ_left, sums_cons, sums_zero, add_zero, here, abs_neg, later,
   Nat.zero_le, forall_const, Nat.le_zero, Nat.succ_ne_zero, false_imp_iff, true_and,
   Nat.add_le_add_iff_right, add_assoc pre v, and_assoc]

theorem everywhere_iff_within (nonneg : 0 ≤ bound) : Everywhere a 0 bound ↔ Within a bound := by
 rw [everywhere_iff]
 simp only [zero_add]
 constructor
 · intro all i inside k before
   cases i with
   | zero =>
    rw [Nat.le_zero.mp before]
    exact nonneg
   | succ i =>
    cases k with
    | zero =>
     have := all i inside i inside le_rfl
     rw [show sums a (i + 1) - 2 * sums a (i + 1) = -sums a (i + 1) by omega, abs_neg] at this
     simpa [sums] using this
    | succ k => exact all k (by omega) i inside (by omega)
 · exact fun within k _ i inside before => within (i + 1) inside (k + 1) (by omega)

/-! ### The three results -/

theorem eq_of_bounds {m other : ℤ} (same : ∀ bound, m ≤ bound ↔ other ≤ bound) : m = other :=
 le_antisymm ((same other).mpr le_rfl) ((same m).mp le_rfl)

theorem isLargest_iff {m : ℤ} : IsLargest a m ↔ ∀ bound, m ≤ bound ↔ Within a bound := by
 constructor
 · rintro ⟨⟨x, visited, rfl⟩, most⟩ bound
   rw [within_iff]
   exact ⟨fun less y other => (most y other).trans less, fun all => all x visited⟩
 · intro bounds
   have most := within_iff.mp ((bounds m).mp le_rfl)
   refine ⟨?_, most⟩
   by_contra none
   push Not at none
   have lower : m ≤ m - 1 := (bounds _).mpr (within_iff.mpr fun x visited => by
    have := most x visited
    have := none x visited
    omega)
   omega

theorem bruteForce_spec :
 (Within a intMax → ∃ m, bruteForce a = some m) ∧
  ∀ m, bruteForce a = some m → Within a intMax ∧ ∀ bound, m ≤ bound ↔ Within a bound := by
 constructor
 · exact fun within => bruteLoop_spec.1 ((everywhere_iff_within (by decide)).mpr within)
 · intro m run
   obtain ⟨within, bounds⟩ := bruteLoop_spec.2 m run
   refine ⟨(everywhere_iff_within (by decide)).mp within, fun bound => ?_⟩
   rw [bounds]
   constructor
   · exact fun both => (everywhere_iff_within both.1).mp both.2
   · intro within
     have nonneg := (abs_nonneg _).trans (within 0 (Nat.zero_le _) 0 le_rfl)
     exact ⟨nonneg, (everywhere_iff_within nonneg).mpr within⟩

/-- The three programs return the largest distance if and only if all positions are `int`s and none
is farther than those that the dynamic program looks at. -/
theorem portal_iff (a : List ℤ) :
 (∃ m, IsLargest a m ∧ bruteForce a = some m ∧ maxDistance a = m ∧ help2_2 a = m) ↔
  (∀ x, Visited a x → |x| ≤ intMax) ∧
   ∀ x, Visited a x → ∃ y, Tracked a y ∧ |x| ≤ |y| := by
 have tracked : ∀ bound, farthest (rows a) (a.length + 1) 0 ≤ bound ↔ _ :=
  fun _ => farthest_le_iff
 have convert : Within a intMax →
  help2_2 a = farthest (rows a) (a.length + 1) 0 := by
  intro within
  have above := (tracked intMax).mpr fun y seen => within_iff.mp within y seen.visited
  have below := ((abs_nonneg _).trans ((tracked _).mp le_rfl 0 ⟨0, Nat.zero_le _, .inl rfl⟩))
  unfold intMax at above
  exact Int.bmod_eq_of_le (by omega) (by omega)
 constructor
 · rintro ⟨m, largest, brute, -, help⟩
   obtain ⟨within, -⟩ := bruteForce_spec.2 m brute
   refine ⟨within_iff.mp within, fun x visited => ?_⟩
   rw [convert within] at help
   by_contra none
   push Not at none
   have := largest.2 x visited
   have lower := (tracked (m - 1)).mpr fun y seen => by
    have := none y seen
    omega
   omega
 · rintro ⟨fits, covered⟩
   have within := within_iff.mpr fits
   obtain ⟨m, brute⟩ := bruteForce_spec.1 within
   obtain ⟨-, bounds⟩ := bruteForce_spec.2 m brute
   refine ⟨m, isLargest_iff.mpr bounds, brute, ?_, ?_⟩
   · exact eq_of_bounds fun bound => maxDistance_le_iff.trans (bounds bound).symm
   · rw [convert within]
     refine eq_of_bounds fun bound => (tracked bound).trans (Iff.trans ?_ (bounds bound).symm)
     rw [within_iff]
     constructor
     · intro all x visited
       obtain ⟨y, seen, less⟩ := covered x visited
       exact less.trans (all y seen)
     · exact fun all y seen => all y seen.visited

/-- From 0 to -2, -1 and 0, the reversal at -2 leads to 4, but the dynamic program returns 3. -/
theorem not_portal : ¬ ∀ a : List ℤ, (∀ i ≤ a.length, Fits (sums a i) ∧ Fits (2 * sums a i)) →
 ∃ m, IsLargest a m ∧ bruteForce a = some m ∧ maxDistance a = m ∧ help2_2 a = m := by
 intro agree
 obtain ⟨m, -, -, prefixes, dynamic⟩ := agree [-2, 1, 1] (by decide)
 have first : maxDistance [-2, 1, 1] = 4 := by decide
 have second : help2_2 [-2, 1, 1] = 3 := by decide
 omega

end MyNotes.Algorithms.Portal
