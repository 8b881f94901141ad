/-
Majority elements by voting, by divide and conquer, and by voting for two candidates.

An array of at most 2^31 - 1 elements has an `int` for each index and each count.  The sum of two
indices need not be one: then there is no result.
-/

import MyNotes.Library.CheckedInt
import Mathlib.Algebra.GroupWithZero.Nat
import Mathlib.Data.List.Nodup

namespace MyNotes.Algorithms.MajorityElement

open Library.CheckedInt List Option

/-! ### The three programs -/

/-- One turn of the loop, on the winner and its count. -/
def vote (state : ℤ × ℕ) (num : ℤ) : ℤ × ℕ :=
 if state.1 = num then (state.1, state.2 + 1)
 else if state.2 = 0 then (num, state.2)
 else (state.1, state.2 - 1)

def majorityElement : List ℤ → ℤ
 | [] => -1
 | first :: rest => (rest.foldl vote (first, 1)).1

def countInRange (nums : List ℤ) (target : ℤ) (lo hi : ℕ) : ℕ :=
 (List.range' lo (hi + 1 - lo)).countP fun i => nums.getD i 0 = target

/-- Every call has `lo <= hi`. -/
def majorityElementRec (nums : List ℤ) (lo hi : ℕ) : Option ℤ :=
 if lo < hi then
  (checkedNat (lo + hi)).bind fun _ =>
   let mid := (lo + hi) / 2
   (majorityElementRec nums lo mid).bind fun leftMajority =>
    (majorityElementRec nums (mid + 1) hi).map fun rightMajority =>
     if countInRange nums leftMajority lo hi > (hi - lo + 1) / 2 then leftMajority
     else if countInRange nums rightMajority lo hi > (hi - lo + 1) / 2 then rightMajority
     else -1
 else some (nums.getD lo 0)
 termination_by hi - lo

structure Candidates where
 element1 : ℤ
 element2 : ℤ
 vote1 : ℕ
 vote2 : ℕ

def Candidates.vote (self : Candidates) (num : ℤ) : Candidates :=
 if 0 < self.vote1 ∧ num = self.element1 then { self with vote1 := self.vote1 + 1 }
 else if 0 < self.vote2 ∧ num = self.element2 then { self with vote2 := self.vote2 + 1 }
 else if self.vote1 = 0 then { self with element1 := num, vote1 := self.vote1 + 1 }
 else if self.vote2 = 0 then { self with element2 := num, vote2 := self.vote2 + 1 }
 else { self with vote1 := self.vote1 - 1, vote2 := self.vote2 - 1 }

def majorityElements (nums : List ℤ) : List ℤ :=
 let last := nums.foldl Candidates.vote ⟨0, 0, 0, 0⟩
 let cnt1 := nums.countP fun num => 0 < last.vote1 ∧ num = last.element1
 let cnt2 := nums.countP fun num => 0 < last.vote2 ∧ num = last.element2
 (if 0 < last.vote1 ∧ cnt1 > nums.length / 3 then [last.element1] else []) ++
  (if 0 < last.vote2 ∧ cnt2 > nums.length / 3 then [last.element2] else [])

/-! ### Voting -/

/-- What is left of the winner after all cancellations is its count, or one more. -/
def Leads (seen : List ℤ) (state : ℤ × ℕ) : Prop :=
 ∃ margin, (margin = state.2 ∨ margin = state.2 + 1) ∧
  (∀ x ≠ state.1, 2 * seen.count x + margin ≤ seen.length) ∧
  2 * seen.count state.1 ≤ seen.length + margin

variable {seen : List ℤ}

theorem Leads.vote {state : ℤ × ℕ} (leads : Leads seen state) (num : ℤ) :
 Leads (num :: seen) (vote state num) := by
 obtain ⟨margin, left, others, own⟩ := leads
 unfold MajorityElement.vote
 by_cases same : state.1 = num
 · subst same
   rw [if_pos rfl]
   refine ⟨margin + 1, by omega, fun x different => ?_, ?_⟩
   · have := others x different
     rw [count_cons_of_ne different.symm, length_cons]
     omega
   · dsimp only
     rw [count_cons_self, length_cons]
     omega
 · rw [if_neg same]
   have rival := others num (Ne.symm same)
   by_cases spent : state.2 = 0
   · rw [if_pos spent]
     -- A margin of nothing becomes one, and a margin of one is used up.
     refine ⟨1 - margin, by omega, fun x different => ?_, ?_⟩
     · rw [count_cons_of_ne different.symm, length_cons]
       by_cases old : x = state.1
       · subst old
         omega
       · have := others x old
         omega
     · dsimp only
       rw [count_cons_self, length_cons]
       omega
   · rw [if_neg spent]
     refine ⟨margin - 1, by omega, fun x different => ?_, ?_⟩
     · have := others x different
       rw [count_cons, length_cons]
       split <;> omega
     · rw [count_cons_of_ne (Ne.symm same), length_cons]
       omega

theorem Leads.foldl {state : ℤ × ℕ} (leads : Leads seen state) (nums : List ℤ) :
 Leads (nums.reverse ++ seen) (nums.foldl MajorityElement.vote state) := by
 induction nums generalizing seen state with
 | nil => exact leads
 | cons num nums ih =>
  rw [foldl_cons, reverse_cons, append_assoc]
  exact ih (leads.vote num)

theorem majorityElement_eq {nums : List ℤ} {value : ℤ} (most : nums.length < 2 * nums.count value) :
 majorityElement nums = value := by
 cases nums with
 | nil => exact absurd most (by simp)
 | cons first rest =>
  have start : Leads [first] (first, 1) :=
   ⟨1, .inl rfl, fun x different => by rw [count_singleton]; simp [Ne.symm different], by simp⟩
  obtain ⟨margin, -, others, -⟩ := start.foldl rest
  by_contra different
  have few := others value (Ne.symm different)
  rw [count_append, count_reverse, length_append, length_reverse] at few
  rw [← singleton_append, count_append, length_append] at most
  omega

/-! ### Divide and conquer -/

theorem countP_eq_add_le {a b : ℤ} (different : a ≠ b) (nums : ℕ → ℤ) (indices : List ℕ) :
 indices.countP (fun i => nums i = a) + indices.countP (fun i => nums i = b) ≤
  indices.length := by
 induction indices with
 | nil => simp
 | cons i rest ih =>
  rw [countP_cons, countP_cons, length_cons]
  by_cases first : nums i = a
  · simp only [first, different, decide_true, decide_false]
    simp
    omega
  · simp only [first, decide_false]
    simp only [Bool.false_eq_true, if_false]
    split <;> omega

theorem countInRange_add_le {a b : ℤ} (different : a ≠ b) (nums : List ℤ) (lo hi : ℕ) :
 countInRange nums a lo hi + countInRange nums b lo hi ≤ hi + 1 - lo := by
 have := countP_eq_add_le different (fun i => nums.getD i 0) (range' lo (hi + 1 - lo))
 rwa [length_range'] at this

theorem countInRange_split (nums : List ℤ) (value : ℤ) {lo mid hi : ℕ} (low : lo ≤ mid)
 (high : mid < hi) : countInRange nums value lo hi =
  countInRange nums value lo mid + countInRange nums value (mid + 1) hi := by
 unfold countInRange
 have whole : range' lo (hi + 1 - lo) =
  range' lo (mid + 1 - lo) ++ range' (mid + 1) (hi + 1 - (mid + 1)) := by
  have joined := range'_append_1 (s := lo) (m := mid + 1 - lo) (n := hi + 1 - (mid + 1))
  rw [show lo + (mid + 1 - lo) = mid + 1 by omega] at joined
  rw [joined]
  congr 1
  omega
 rw [whole, countP_append]

/-- The sums fit where the whole range has at most `2 ^ 30 + 1` indices. -/
theorem majorityElementRec_eq {nums : List ℤ} {lo hi : ℕ} (ordered : lo ≤ hi)
 (small : hi ≤ 2 ^ 30) : ∃ result, majorityElementRec nums lo hi = some result ∧
  ∀ value, hi + 1 - lo < 2 * countInRange nums value lo hi → result = value := by
 fun_induction majorityElementRec nums lo hi with
 | case1 lo hi less ihLeft ihRight =>
  obtain ⟨left, found, isLeft⟩ := ihLeft (by omega) (by omega)
  obtain ⟨right, foundRight, isRight⟩ := ihRight (by omega) (by omega)
  have fits : checkedNat (lo + hi) = some (lo + hi) := checkedNat_eq (by unfold intMax; omega)
  rw [fits, bind_some]
  dsimp only
  rw [found, bind_some, foundRight, map_some]
  refine ⟨_, rfl, fun value most => ?_⟩
  have halves := countInRange_split nums value (show lo ≤ (lo + hi) / 2 by omega)
   (show (lo + hi) / 2 < hi by omega)
  have rival : ∀ other, other ≠ value →
   countInRange nums value lo hi + countInRange nums other lo hi ≤ hi + 1 - lo :=
   fun _ different => countInRange_add_le different.symm nums lo hi
  by_contra different
  by_cases countedLeft : countInRange nums left lo hi > (hi - lo + 1) / 2
  · rw [if_pos countedLeft] at different
    have := rival left different
    omega
  rw [if_neg countedLeft] at different
  by_cases countedRight : countInRange nums right lo hi > (hi - lo + 1) / 2
  · rw [if_pos countedRight] at different
    have := rival right different
    omega
  -- A value that has the majority has it in one of the halves.
  by_cases first : (lo + hi) / 2 + 1 - lo < 2 * countInRange nums value lo ((lo + hi) / 2)
  · rw [isLeft value first] at countedLeft
    omega
  · rw [isRight value (by omega)] at countedRight
    omega
 | case2 lo hi notLess =>
  obtain rfl : lo = hi := by omega
  refine ⟨_, rfl, fun value most => ?_⟩
  unfold countInRange at most
  rw [show lo + 1 - lo = 1 by omega, range'_one, countP_singleton] at most
  by_contra different
  rw [if_neg (by simpa using different)] at most
  omega

/-- A range that ends above the index `2 ^ 30` has the range of two indices at its end. -/
theorem majorityElementRec_eq_none {nums : List ℤ} {lo hi : ℕ} (less : lo < hi)
 (large : 2 ^ 30 < hi) : majorityElementRec nums lo hi = none := by
 fun_induction majorityElementRec nums lo hi with
 | case1 lo hi _ ihLeft ihRight =>
  by_cases fits : ((lo + hi : ℕ) : ℤ) ≤ intMax
  · have right := ihRight (by unfold intMax at fits; omega) large
    rw [checkedNat_eq fits, bind_some]
    dsimp only
    rw [right]
    cases majorityElementRec nums lo ((lo + hi) / 2) <;> rfl
  · rw [checkedNat_eq_none (not_le.mp fits)]
    rfl
 | case2 lo hi notLess => exact absurd less notLess

theorem countInRange_all (nums : List ℤ) (value : ℤ) (nonempty : nums ≠ []) :
 countInRange nums value 0 (nums.length - 1) = nums.count value := by
 have length := length_pos_iff.mpr nonempty
 have whole : (range nums.length).map (fun i => nums.getD i 0) = nums := by
  apply ext_getElem
  · simp
  · intro i _ below
    simp [below]
 calc
  countInRange nums value 0 (nums.length - 1)
  _ = (range nums.length).countP fun i => nums.getD i 0 = value := by
    rw [countInRange, show nums.length - 1 + 1 - 0 = nums.length by omega,
     range_eq_range']
  _ = ((range nums.length).map fun i => nums.getD i 0).countP (· = value) := by
    rw [countP_map]
    rfl
  _ = nums.count value := by
    rw [whole]
    exact countP_congr fun _ _ => by simp

/-! ### Two candidates -/

/-- Each vote that is left stands for a value of three that was not cancelled. -/
structure Candidates.Counts (self : Candidates) (seen : List ℤ) : Prop where
 bound : ∀ x, 3 * seen.count x + self.vote1 + self.vote2 ≤ seen.length +
  (if x = self.element1 then 3 * self.vote1 else 0) +
  (if x = self.element2 then 3 * self.vote2 else 0)
 different : 0 < self.vote1 → 0 < self.vote2 → self.element1 ≠ self.element2

theorem Candidates.Counts.vote {self : Candidates} (counts : self.Counts seen) (num : ℤ) :
 (self.vote num).Counts (num :: seen) := by
 obtain ⟨element1, element2, vote1, vote2⟩ := self
 obtain ⟨bound, different⟩ := counts
 dsimp only at bound different
 unfold Candidates.vote
 by_cases own1 : 0 < vote1 ∧ num = element1
 · rw [if_pos own1]
   refine ⟨fun x => ?_, fun _ => different own1.1⟩
   have := bound x
   grind
 rw [if_neg own1]
 by_cases own2 : 0 < vote2 ∧ num = element2
 · rw [if_pos own2]
   refine ⟨fun x => ?_, fun some1 _ => different some1 own2.1⟩
   have := bound x
   grind
 rw [if_neg own2]
 by_cases free1 : vote1 = 0
 · rw [if_pos free1]
   refine ⟨fun x => ?_, fun _ some2 same => own2 ⟨some2, same⟩⟩
   have := bound x
   grind
 rw [if_neg free1]
 by_cases free2 : vote2 = 0
 · rw [if_pos free2]
   refine ⟨fun x => ?_, fun some1 _ same => own1 ⟨some1, same.symm⟩⟩
   have := bound x
   grind
 rw [if_neg free2]
 have apart := different (by omega) (by omega)
 refine ⟨fun x => ?_, fun _ _ => apart⟩
 have := bound x
 grind

theorem Candidates.Counts.foldl {self : Candidates} (counts : self.Counts seen) (nums : List ℤ) :
 (nums.foldl Candidates.vote self).Counts (nums.reverse ++ seen) := by
 induction nums generalizing seen self with
 | nil => exact counts
 | cons num nums ih =>
  rw [foldl_cons, reverse_cons, append_assoc]
  exact ih (counts.vote num)

theorem countP_candidate (vote : ℕ) (nums : List ℤ) (element : ℤ) (voted : 0 < vote) :
 nums.countP (fun num => 0 < vote ∧ num = element) = nums.count element :=
 countP_congr fun _ _ => by simp [voted]

theorem mem_majorityElements_iff (nums : List ℤ) :
 (majorityElements nums).Nodup ∧
  ∀ value, value ∈ majorityElements nums ↔ nums.length / 3 < nums.count value := by
 have start : Candidates.Counts ⟨0, 0, 0, 0⟩ [] := ⟨fun x => by simp, by simp⟩
 have counts := start.foldl nums
 unfold majorityElements
 generalize nums.foldl Candidates.vote ⟨0, 0, 0, 0⟩ = last at counts
 obtain ⟨bound, different⟩ := counts
 have first := countP_candidate last.vote1 nums last.element1
 have second := countP_candidate last.vote2 nums last.element2
 constructor
 · grind
 · intro value
   have := bound value
   grind

/-- Voting finds a value that has the majority, and voting for two candidates finds the values that
occur in more than a third of the places.  Divide and conquer finds the majority unless the array
has more than `2 ^ 30 + 1` elements: then the sum of two indices overflows. -/
theorem majority_correct_iff (nums : List ℤ) (counted : (nums.length : ℤ) ≤ intMax) :
 ((∀ value, nums.length < 2 * nums.count value → majorityElement nums = value ∧
   majorityElementRec nums 0 (nums.length - 1) = some value) ∧
  (majorityElements nums).Nodup ∧
   ∀ value, value ∈ majorityElements nums ↔ nums.length / 3 < nums.count value) ↔
 nums.length ≤ 2 ^ 30 + 1 ∨ ∀ value, 2 * nums.count value ≤ nums.length := by
 constructor
 · rintro ⟨found, -⟩
   by_contra neither
   push Not at neither
   obtain ⟨large, value, most⟩ := neither
   have overflows : majorityElementRec nums 0 (nums.length - 1) = none :=
    majorityElementRec_eq_none (by omega) (by omega)
   cases overflows.symm.trans (found value most).2
 · intro holds
   refine ⟨fun value most => ⟨majorityElement_eq most, ?_⟩, mem_majorityElements_iff nums⟩
   have small : nums.length ≤ 2 ^ 30 + 1 := holds.resolve_right fun none => by
    have := none value
    omega
   have nonempty : nums ≠ [] := by
    rintro rfl
    exact absurd most (by simp)
   obtain ⟨result, returned, isMost⟩ := @majorityElementRec_eq nums 0 (nums.length - 1)
    (Nat.zero_le _) (by omega)
   rw [returned, isMost value]
   rw [countInRange_all nums value nonempty]
   have := length_pos_iff.mpr nonempty
   omega

theorem majority_correct_iff_four :
 ((∀ value, 4 < 2 * [7, 5, 7, 7].count value → majorityElement [7, 5, 7, 7] = value ∧
   majorityElementRec [7, 5, 7, 7] 0 3 = some value) ∧
  (majorityElements [7, 5, 7, 7]).Nodup ∧
   ∀ value, value ∈ majorityElements [7, 5, 7, 7] ↔ 4 / 3 < [7, 5, 7, 7].count value) ↔
 4 ≤ 2 ^ 30 + 1 ∨ ∀ value : ℤ, 2 * [7, 5, 7, 7].count value ≤ 4 :=
 majority_correct_iff [7, 5, 7, 7] (by decide)

/-- So many sevens have the majority. -/
theorem majorityElementRec_overflows :
 (replicate (2 ^ 30 + 2) (7 : ℤ)).length < 2 * (replicate (2 ^ 30 + 2) (7 : ℤ)).count 7 ∧
  majorityElementRec (replicate (2 ^ 30 + 2) 7) 0
   ((replicate (2 ^ 30 + 2) (7 : ℤ)).length - 1) ≠ some 7 := by
 rw [length_replicate, count_replicate_self, majorityElementRec_eq_none (by decide) (by decide)]
 exact ⟨by decide, by simp⟩

example : majorityElements [1, 2, 1, 3, 2, 1, 2] = [1, 2] := by decide

end MyNotes.Algorithms.MajorityElement
