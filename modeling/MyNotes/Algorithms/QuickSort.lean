/-
The quicksort of the sorting notes that takes the pivot from three places.

An index outside the vector is a fault, and so is an `int` that does not fit.  The loop of
`Partition` has at most so many rounds here, and does not return within any number of them where it
would go on for ever.
-/

import MyNotes.Library.CheckedArray
import MyNotes.Library.CheckedInt
import MyNotes.Library.SearchTree
import MyNotes.Library.Slice

namespace MyNotes.Algorithms.QuickSort

open Library.CheckedArray Library.CheckedInt Library.Slice List

def swap (a : List ℤ) (i j : ℕ) : Option (List ℤ) :=
 a[i]?.bind fun first =>
  a[j]?.bind fun second => (store a i second).bind fun a => store a j first

/-- `if (a[i] > a[j]) swap(a, i, j);`. -/
def swapIfGreater (a : List ℤ) (i j : ℕ) : Option (List ℤ) :=
 a[i]?.bind fun first =>
  a[j]?.bind fun second => if first > second then swap a i j else some a

/-- `while (left < right && a[right] > pivotkey) right--;`, with so many places from `left` on. -/
def scanRight (a : List ℤ) (pivotkey : ℤ) : ℕ → ℕ → Option ℕ
 | 0, right => some right
 | count + 1, right =>
  a[right]?.bind fun value =>
   if value > pivotkey then scanRight a pivotkey count (right - 1) else some right

/-- `while (left < right && a[left] < pivotkey) left++;`, with so many places up to `right`. -/
def scanLeft (a : List ℤ) (pivotkey : ℤ) : ℕ → ℕ → Option ℕ
 | 0, left => some left
 | count + 1, left =>
  a[left]?.bind fun value =>
   if value < pivotkey then scanLeft a pivotkey count (left + 1) else some left

/-- `a[target] = a[source];`. -/
def copy (a : List ℤ) (target source : ℕ) : Option (List ℤ) :=
 a[source]?.bind fun value => store a target value

/-- The loop of `Partition`, at most so many rounds; it ends with the vector and `left`. -/
def partitionLoop (pivotkey : ℤ) : ℕ → List ℤ → ℕ → ℕ → Option (List ℤ × ℕ)
 | 0, _, _, _ => none
 | rounds + 1, a, left, right =>
  if left < right then
   (scanRight a pivotkey (right - left) right).bind fun right =>
    (copy a left right).bind fun a =>
     (scanLeft a pivotkey (right - left) left).bind fun left =>
      (copy a right left).bind fun a => partitionLoop pivotkey rounds a left right
  else some (a, left)

/-- `Partition(a, left, right)`: the vector and the place of the pivot. -/
def partition (rounds : ℕ) (a : List ℤ) (left right : ℕ) : Option (List ℤ × ℕ) :=
 let mid := left + (right - left) / 2
 (swapIfGreater a left right).bind fun a =>
  (swapIfGreater a mid left).bind fun a =>
   (swapIfGreater a mid right).bind fun a =>
    a[left]?.bind fun pivotkey =>
     (partitionLoop pivotkey rounds a left right).bind fun (a, left) =>
      (store a left pivotkey).map fun a => (a, left)

/-- `QSort(a, left, right)` with two calls, at most so many calls deep. -/
def qSort (rounds : ℕ) : ℕ → List ℤ → ℕ → ℤ → Option (List ℤ)
 | 0, _, _, _ => none
 | depth + 1, a, left, right =>
  if left < right then
   (partition rounds a left right.toNat).bind fun (a, pivot) =>
    (qSort rounds depth a left (pivot - 1)).bind fun a =>
     (checkedNat (pivot + 1)).bind fun left => qSort rounds depth a left right
  else some a

/-- The loop of `QSort(a, left, right)` with one call, at most so many rounds. -/
def tailLoop (rounds : ℕ) (call : List ℤ → ℕ → ℤ → Option (List ℤ)) :
 ℕ → List ℤ → ℕ → ℤ → Option (List ℤ)
 | 0, _, _, _ => none
 | count + 1, a, left, right =>
  if left < right then
   (partition rounds a left right.toNat).bind fun (a, pivot) =>
    (call a left (pivot - 1)).bind fun a =>
     (checkedNat (pivot + 1)).bind fun left => tailLoop rounds call count a left right
  else some a

/-- `QSort(a, left, right)` with one call, at most so many calls deep. -/
def qSortTail (rounds : ℕ) : ℕ → List ℤ → ℕ → ℤ → Option (List ℤ)
 | 0, _, _, _ => none
 | depth + 1, a, left, right => tailLoop rounds (qSortTail rounds depth) rounds a left right

/-- A `size_t` that is made an `int`. -/
def asInt (value : ℤ) : ℤ := (value + 2147483648) % 4294967296 - 2147483648

def quickSort (rounds depth : ℕ) (a : List ℤ) : Option (List ℤ) :=
 qSort rounds depth a 0 (asInt (a.length - 1))

def quickSortTail (rounds depth : ℕ) (a : List ℤ) : Option (List ℤ) :=
 qSortTail rounds depth a 0 (asInt (a.length - 1))

/-! ### The scans -/

variable {a b start : List ℤ} {key : ℤ} {count left right first last rounds : ℕ}

/-- The item there is not larger than the pivot, and holds the scan from the right. -/
def HeldRight (a : List ℤ) (key : ℤ) (place : ℕ) : Prop :=
 ∃ value ≤ key, a[place]? = some value

/-- The item there is not smaller than the pivot, and holds the scan from the left. -/
def HeldLeft (a : List ℤ) (key : ℤ) (place : ℕ) : Prop :=
 ∃ value ≥ key, a[place]? = some value

theorem scanRight_eq (key : ℤ) (inside : right < a.length) (enough : count ≤ right) :
 ∃ right' ≤ right, scanRight a key count right = some right' ∧ right ≤ right' + count ∧
  (∀ i value, right' < i → i ≤ right → a[i]? = some value → key < value) ∧
  (right' + count = right ∨ HeldRight a key right') := by
 induction count generalizing right with
 | zero => exact ⟨right, le_rfl, rfl, le_rfl, fun i _ after before => by omega, .inl rfl⟩
 | succ count ih =>
  rw [scanRight, getElem?_eq_getElem inside, Option.bind_some]
  by_cases larger : a[right] > key
  · obtain ⟨right', within, scanned, near, passed, stopped⟩ :=
     ih (show right - 1 < a.length by omega) (by omega)
    rw [if_pos larger]
    refine ⟨right', by omega, scanned, by omega, fun i value after before here => ?_,
     stopped.imp_left fun equal => by omega⟩
    by_cases at_right : i = right
    · simp_all
    · exact passed i value after (by omega) here
  · rw [if_neg larger]
    refine ⟨right, le_rfl, rfl, by omega, fun i _ after before => by omega, .inr ?_⟩
    exact ⟨a[right], not_lt.mp larger, getElem?_eq_getElem inside⟩

theorem scanLeft_eq (key : ℤ) (inside : left + count < a.length) :
 ∃ left' ≥ left, scanLeft a key count left = some left' ∧ left' ≤ left + count ∧
  (∀ i value, left ≤ i → i < left' → a[i]? = some value → value < key) ∧
  (left' = left + count ∨ HeldLeft a key left') := by
 induction count generalizing left with
 | zero => exact ⟨left, le_rfl, rfl, le_rfl, fun i _ after before => by omega, .inl rfl⟩
 | succ count ih =>
  have valid : left < a.length := by omega
  rw [scanLeft, getElem?_eq_getElem valid, Option.bind_some]
  by_cases smaller : a[left] < key
  · obtain ⟨left', within, scanned, near, passed, stopped⟩ :=
     ih (show left + 1 + count < a.length by omega)
    rw [if_pos smaller]
    refine ⟨left', by omega, scanned, by omega, fun i value after before here => ?_,
     stopped.imp_left fun equal => by omega⟩
    by_cases at_left : i = left
    · simp_all
    · exact passed i value (by omega) before here
  · rw [if_neg smaller]
    refine ⟨left, le_rfl, rfl, by omega, fun i _ after before => by omega, .inr ?_⟩
    exact ⟨a[left], not_lt.mp smaller, getElem?_eq_getElem valid⟩

/-! ### The loop of `Partition` -/

/-- The place `left` is free for the pivot.  What is before it is smaller, and what is behind
`right` is larger. -/
structure Parts (start : List ℤ) (key : ℤ) (first last : ℕ) (a : List ℤ) (left right : ℕ) :
 Prop where
 lower : first ≤ left
 ordered : left ≤ right
 upper : right ≤ last
 inside : last < start.length
 rearranged : Rearranged first (last + 1) start (a.set left key)
 smaller : ∀ i value, first ≤ i → i < left → a[i]? = some value → value < key
 larger : ∀ i value, right < i → i ≤ last → a[i]? = some value → key < value

/-- The pivot is there once more, at a place that no scan passes. -/
def Blocked (key : ℤ) (a : List ℤ) (left right : ℕ) : Prop :=
 ∃ i, left < i ∧ i ≤ right ∧ a[i]? = some key

/-- What one round of the loop makes of the vector. -/
structure Round (key : ℤ) (a : List ℤ) (left right : ℕ) (b : List ℤ) (left' right' : ℕ) :
 Prop where
 lower : left ≤ left'
 ordered : left' ≤ right'
 upper : right' ≤ right
 passed_right : ∀ i value, right' < i → i ≤ right → a[i]? = some value → key < value
 moves : ∃ x y, a[right']? = some x ∧ (a.set left x)[left']? = some y ∧
  b = (a.set left x).set right' y ∧
  (∀ i value, left ≤ i → i < left' → (a.set left x)[i]? = some value → value < key) ∧
  (right' = left ∨ x ≤ key) ∧ (left' = right' ∨ key ≤ y)

theorem partitionLoop_round (key : ℤ) (closing : left < right) (inside : right < a.length) :
 ∃ b left' right', Round key a left right b left' right' ∧ ∀ rounds,
  partitionLoop key (rounds + 1) a left right = partitionLoop key rounds b left' right' := by
 obtain ⟨right', within, scanned, near, passed, stopped⟩ :=
  scanRight_eq key inside (show right - left ≤ right by omega)
 have valid : right' < a.length := by omega
 obtain ⟨x, at_right⟩ : ∃ x, a[right']? = some x := ⟨_, getElem?_eq_getElem valid⟩
 have room : left + (right' - left) < (a.set left x).length := by
  rw [length_set]
  omega
 obtain ⟨left', after, scanned', near', passed', stopped'⟩ := scanLeft_eq key room
 obtain ⟨y, at_left⟩ : ∃ y, (a.set left x)[left']? = some y :=
  ⟨_, getElem?_eq_getElem (by omega)⟩
 refine ⟨_, left', right', ⟨after, by omega, within, passed, x, y, at_right, at_left, rfl, passed',
  ?_, ?_⟩, fun rounds => ?_⟩
 · rcases stopped with whole | ⟨value, small, here⟩
   · exact .inl (by omega)
   · simp_all
 · rcases stopped' with whole | ⟨value, large, here⟩
   · exact .inl (by omega)
   · simp_all
 · have stored : store a left x = some (a.set left x) := store_eq (by omega)
   have stored' : store (a.set left x) right' y = some ((a.set left x).set right' y) :=
    store_eq (by rw [length_set]; omega)
   rw [partitionLoop, if_pos closing, scanned, Option.bind_some, copy, at_right, Option.bind_some,
    stored, Option.bind_some, scanned', Option.bind_some, copy, at_left, Option.bind_some,
    stored', Option.bind_some]

variable {left' right' : ℕ}

theorem Parts.round (parts : Parts start key first last a left right)
 (round : Round key a left right b left' right') (valid : right < a.length) :
 Parts start key first last b left' right' := by
 obtain ⟨lower, ordered, upper, inside, rearranged, smaller, larger⟩ := parts
 obtain ⟨after, ordered', within, passed, x, y, at_right, at_left, rfl, passed', -, -⟩ := round
 refine ⟨by omega, ordered', by omega, inside, ?_, fun i value from_first before here => ?_,
  fun i value behind to_last here => ?_⟩
 · have once := rearranged_hole key (show left < a.length by omega) at_right
    (show first ≤ left ∧ left < last + 1 by omega) (by omega)
   have twice := rearranged_hole key
    (show right' < (a.set left x).length by rw [length_set]; omega) at_left
    (show first ≤ right' ∧ right' < last + 1 by omega) (by omega)
   exact rearranged.trans (once.trans twice)
 · rw [getElem?_set_ne (by omega)] at here
   by_cases old : i < left
   · rw [getElem?_set_ne (by omega)] at here
     exact smaller i value from_first old here
   · exact passed' i value (by omega) before here
 · rw [getElem?_set_ne (by omega), getElem?_set_ne (by omega)] at here
   by_cases old : i ≤ right
   · exact passed i value behind old here
   · exact larger i value (by omega) to_last here

theorem Round.blocked_iff (round : Round key a left right b left' right') (closing : left < right)
 (valid : right < a.length) : Blocked key b left' right' ↔ Blocked key a left right := by
 obtain ⟨after, ordered', within, passed, x, y, at_right, at_left, rfl, passed', -, -⟩ := round
 have first_set : (a.set left x)[left]? = some x := getElem?_set_self (by omega)
 have second_set : ((a.set left x).set right' y)[right']? = some y :=
  getElem?_set_self (by rw [length_set]; omega)
 constructor
 · rintro ⟨i, behind, to_right, here⟩
   by_cases last_one : i = right'
   · subst last_one
     obtain rfl := Option.some.inj (second_set.symm.trans here)
     by_cases unmoved : left' = left
     · subst unmoved
       obtain rfl := Option.some.inj (first_set.symm.trans at_left)
       exact ⟨i, behind, within, at_right⟩
     · rw [getElem?_set_ne (by omega)] at at_left
       exact ⟨left', by omega, by omega, at_left⟩
   · rw [getElem?_set_ne (by omega), getElem?_set_ne (by omega)] at here
     exact ⟨i, by omega, by omega, here⟩
 · rintro ⟨i, behind, to_right, here⟩
   have not_passed : i ≤ right' := by
    by_contra beyond
    exact lt_irrefl key (passed i key (by omega) to_right here)
   by_cases last_one : i = right'
   · subst last_one
     obtain rfl := Option.some.inj (at_right.symm.trans here)
     have unmoved : left' = left := by
      by_contra moved
      exact lt_irrefl x (passed' left x le_rfl (by omega) first_set)
     subst unmoved
     obtain rfl := Option.some.inj (first_set.symm.trans at_left)
     exact ⟨i, behind, le_rfl, second_set⟩
   · have kept : (a.set left x)[i]? = some key := (getElem?_set_ne (by omega)).trans here
     have not_passed' : left' ≤ i := by
      by_contra beyond
      exact lt_irrefl key (passed' i key (by omega) (by omega) kept)
     by_cases first_one : left' = i
     · subst first_one
       obtain rfl := Option.some.inj (at_left.symm.trans kept)
       exact ⟨right', by omega, le_rfl, second_set⟩
     · exact ⟨i, by omega, not_passed, (getElem?_set_ne (by omega)).trans kept⟩

theorem Round.closer (round : Round key a left right b left' right') (closing : left < right)
 (valid : right < a.length) (alone : ¬Blocked key a left right) :
 right' - left' < right - left := by
 obtain ⟨after, ordered', within, -, x, y, at_right, at_left, rfl, -, low, high⟩ := round
 by_contra far
 obtain ⟨rfl, rfl⟩ : right' = right ∧ left' = left := by omega
 rcases low with met | low
 · omega
 · have first_set : (a.set left' x)[left']? = some x := getElem?_set_self (by omega)
   obtain rfl := Option.some.inj (first_set.symm.trans at_left)
   rcases high with met | high
   · omega
   · obtain rfl := le_antisymm low high
     exact alone ⟨right', closing, le_rfl, at_right⟩

theorem Parts.length_eq (parts : Parts start key first last a left right) :
 a.length = start.length := by
 rw [← parts.rearranged.length_eq, length_set]

theorem Parts.right_lt (parts : Parts start key first last a left right) : right < a.length := by
 rw [parts.length_eq]
 exact parts.upper.trans_lt parts.inside

variable {place : ℕ}

section

variable (parts : Parts start key first last a left right)
include parts

theorem partitionLoop_parts (returned : partitionLoop key rounds a left right = some (b, place)) :
 Parts start key first last b place place := by
 induction rounds generalizing a left right with
 | zero => cases returned
 | succ rounds ih =>
  by_cases closing : left < right
  · obtain ⟨next, left', right', round, same⟩ :=
     partitionLoop_round key closing parts.right_lt
    rw [same] at returned
    exact ih (parts.round round parts.right_lt) returned
  · obtain rfl := le_antisymm parts.ordered (not_lt.mp closing)
    rw [partitionLoop, if_neg closing] at returned
    simp_all

theorem partitionLoop_alone (alone : ¬Blocked key a left right) (enough : right - left < rounds) :
 ∃ result, partitionLoop key rounds a left right = some result := by
 induction rounds generalizing a left right with
 | zero => cases enough
 | succ rounds ih =>
  by_cases closing : left < right
  · obtain ⟨next, left', right', round, same⟩ :=
     partitionLoop_round key closing parts.right_lt
    have closer := round.closer closing parts.right_lt alone
    rw [same]
    refine ih (parts.round round parts.right_lt) (fun blocked => alone ?_) (by omega)
    exact (round.blocked_iff closing parts.right_lt).mp blocked
  · exact ⟨(a, left), by rw [partitionLoop, if_neg closing]⟩

theorem partitionLoop_blocked (blocked : Blocked key a left right) (rounds : ℕ) :
 partitionLoop key rounds a left right = none := by
 induction rounds generalizing a left right with
 | zero => rfl
 | succ rounds ih =>
  have closing : left < right := by
   obtain ⟨i, behind, before, -⟩ := blocked
   omega
  obtain ⟨next, left', right', round, same⟩ :=
   partitionLoop_round key closing parts.right_lt
  rw [same]
  exact ih (parts.round round parts.right_lt)
   ((round.blocked_iff closing parts.right_lt).mpr blocked)

end

/-! ### `Partition` -/

/-- The larger one of the middle value and the smaller one of those at the ends; the smaller one of
two. -/
def pivotValue (a : List ℤ) (left right : ℕ) : ℤ :=
 let mid := left + (right - left) / 2
 let low := min (a.getD left 0) (a.getD right 0)
 if mid = left then low else max low (a.getD mid 0)

/-- The pivot is at its place, and the others are on their sides of it. -/
structure Partitioned (start : List ℤ) (first last : ℕ) (a : List ℤ) (place : ℕ) (key : ℤ) :
 Prop where
 lower : first ≤ place
 upper : place ≤ last
 rearranged : Rearranged first (last + 1) start a
 pivot : a[place]? = some key
 smaller : ∀ i value, first ≤ i → i < place → a[i]? = some value → value < key
 larger : ∀ i value, place < i → i ≤ last → a[i]? = some value → key < value

theorem swap_eq {i j : ℕ} {x y : ℤ} (here : a[i]? = some x) (there : a[j]? = some y) :
 swap a i j = some ((a.set i y).set j x) := by
 obtain ⟨valid, -⟩ := List.getElem?_eq_some_iff.mp here
 obtain ⟨valid', -⟩ := List.getElem?_eq_some_iff.mp there
 rw [swap, here, Option.bind_some, there, Option.bind_some, store_eq valid, Option.bind_some,
  store_eq (by rwa [length_set])]

theorem swapIfGreater_eq {i j : ℕ} {x y : ℤ} (here : a[i]? = some x) (there : a[j]? = some y)
 (inside : first ≤ i ∧ i < last) (inside' : first ≤ j ∧ j < last) :
 ∃ b, swapIfGreater a i j = some b ∧ b[i]? = some (min x y) ∧ b[j]? = some (max x y) ∧
  (∀ k, k ≠ i → k ≠ j → b[k]? = a[k]?) ∧ Rearranged first last a b := by
 rw [swapIfGreater, here, Option.bind_some, there, Option.bind_some]
 by_cases greater : x > y
 · obtain ⟨valid', -⟩ := List.getElem?_eq_some_iff.mp there
   rw [if_pos greater, swap_eq here there, min_eq_right greater.le, max_eq_left greater.le]
   refine ⟨_, rfl, ?_, ?_, fun k other other' => ?_, rearranged_swap here there inside inside'⟩
   · grind
   · exact List.getElem?_set_self (by rwa [length_set])
   · grind
 · have ordered : x ≤ y := not_lt.mp greater
   rw [if_neg greater, min_eq_left ordered, max_eq_right ordered]
   exact ⟨a, rfl, here, there, fun _ _ _ => rfl, .refl _ _ _⟩

theorem partition_eq (closing : left < right) (inside : right < a.length) :
 ∃ a', Rearranged left (right + 1) a a' ∧ a'[left]? = some (pivotValue a left right) ∧
  ∀ rounds, partition rounds a left right =
   (partitionLoop (pivotValue a left right) rounds a' left right).bind fun (b, place) =>
    (store b place (pivotValue a left right)).map fun c => (c, place) := by
 obtain ⟨x, at_left⟩ : ∃ x, a[left]? = some x := ⟨_, getElem?_eq_getElem (by omega)⟩
 obtain ⟨y, at_right⟩ : ∃ y, a[right]? = some y := ⟨_, getElem?_eq_getElem inside⟩
 obtain ⟨mid, at_mid⟩ : ∃ mid, mid = left + (right - left) / 2 := ⟨_, rfl⟩
 obtain ⟨z, middle⟩ : ∃ z, a[mid]? = some z := ⟨_, getElem?_eq_getElem (by omega)⟩
 have value : pivotValue a left right = if mid = left then min x y else max (min x y) z := by
  rw [pivotValue, ← at_mid]
  simp only [getD_eq_getElem?_getD, at_left, at_right, middle, Option.getD_some]
 obtain ⟨a₁, swapped₁, low₁, high₁, others₁, moved₁⟩ :=
  swapIfGreater_eq at_left at_right (show left ≤ left ∧ left < right + 1 by omega) (by omega)
 by_cases two : mid = left
 · obtain ⟨a₂, swapped₂, low₂, -, others₂, moved₂⟩ :=
    swapIfGreater_eq low₁ low₁ (show left ≤ left ∧ left < right + 1 by omega) (by omega)
   have right₂ := (others₂ right (by omega) (by omega)).trans high₁
   obtain ⟨a₃, swapped₃, low₃, -, -, moved₃⟩ :=
    swapIfGreater_eq low₂ right₂ (show left ≤ left ∧ left < right + 1 by omega) (by omega)
   rw [min_self, min_eq_left min_le_max] at low₃
   rw [value, if_pos two]
   refine ⟨a₃, (moved₁.trans moved₂).trans moved₃, low₃, fun rounds => ?_⟩
   rw [partition, ← at_mid]
   grind
 · have middle₁ := (others₁ mid two (by omega)).trans middle
   obtain ⟨a₂, swapped₂, low₂, high₂, others₂, moved₂⟩ :=
    swapIfGreater_eq middle₁ low₁ (show left ≤ mid ∧ mid < right + 1 by omega) (by omega)
   have right₂ := (others₂ right (by omega) (by omega)).trans high₁
   obtain ⟨a₃, swapped₃, -, -, others₃, moved₃⟩ :=
    swapIfGreater_eq low₂ right₂ (show left ≤ mid ∧ mid < right + 1 by omega) (by omega)
   have pivot := (others₃ left (Ne.symm two) (by omega)).trans high₂
   rw [value, if_neg two, max_comm]
   refine ⟨a₃, (moved₁.trans moved₂).trans moved₃, pivot, fun rounds => ?_⟩
   rw [partition, ← at_mid]
   grind

theorem blocked_iff (here : a[left]? = some key) (ordered : left ≤ right) :
 Blocked key a left right ↔ (slice a left (right + 1)).count key ≠ 1 := by
 rw [slice_cons (Nat.lt_succ_of_le ordered) here, count_cons_self]
 have more : (slice a (left + 1) (right + 1)).count key + 1 ≠ 1 ↔
  key ∈ slice a (left + 1) (right + 1) := by
  rw [← count_pos_iff]
  omega
 rw [more, mem_slice, Blocked]
 grind

theorem parts_start (moved : Rearranged left (last + 1) start a) (here : a[left]? = some key)
 (ordered : left ≤ last) (inside : last < start.length) :
 Parts start key left last a left last := by
 refine ⟨le_rfl, ordered, le_rfl, inside, ?_, fun i _ after before => by omega,
  fun i _ after before => by omega⟩
 obtain ⟨valid, same⟩ := List.getElem?_eq_some_iff.mp here
 rwa [← same, set_getElem_self]

theorem Parts.partitioned (parts : Parts start key first last a place place) :
 Partitioned start first last (a.set place key) place key := by
 refine ⟨parts.lower, parts.upper, parts.rearranged, getElem?_set_self parts.right_lt,
  fun i value after before here => ?_, fun i value behind to_last here => ?_⟩
 · rw [getElem?_set_ne (by omega)] at here
   exact parts.smaller i value after before here
 · rw [getElem?_set_ne (by omega)] at here
   exact parts.larger i value behind to_last here

theorem partition_partitioned {c : List ℤ} (closing : left < right) (inside : right < a.length)
 (returned : partition rounds a left right = some (c, place)) :
 Partitioned a left right c place (pivotValue a left right) ∧
  (slice a left (right + 1)).count (pivotValue a left right) = 1 := by
 obtain ⟨a', moved, here, same⟩ := partition_eq closing inside
 have parts := parts_start moved here closing.le inside
 rw [same] at returned
 obtain ⟨⟨b, place'⟩, looped, stored⟩ := Option.bind_eq_some_iff.mp returned
 obtain ⟨c', kept, equal⟩ := Option.map_eq_some_iff.mp stored
 obtain ⟨rfl, rfl⟩ := Prod.mk.inj equal
 have final := partitionLoop_parts parts looped
 rw [store_eq final.right_lt] at kept
 obtain rfl := Option.some.inj kept
 refine ⟨final.partitioned, ?_⟩
 by_contra twice
 have slices := moved.slice_perm (show left ≤ right + 1 by omega)
 have blocked := (blocked_iff here closing.le).mpr (slices.count_eq _ ▸ twice)
 rw [partitionLoop_blocked parts blocked] at looped
 cases looped

theorem partition_returns (closing : left < right) (inside : right < a.length)
 (once : (slice a left (right + 1)).count (pivotValue a left right) = 1)
 (enough : right - left < rounds) :
 ∃ result, partition rounds a left right = some result := by
 obtain ⟨a', moved, here, same⟩ := partition_eq closing inside
 have parts := parts_start moved here closing.le inside
 have slices := moved.slice_perm (show left ≤ right + 1 by omega)
 have alone : ¬Blocked (pivotValue a left right) a' left right := by
  rw [blocked_iff here closing.le, slices.count_eq, not_not]
  exact once
 obtain ⟨⟨b, place⟩, looped⟩ := partitionLoop_alone parts alone enough
 have final := partitionLoop_parts parts looped
 rw [same, looped, Option.bind_some]
 simp only [store_eq final.right_lt, Option.map_some]
 exact ⟨_, rfl⟩

/-! ### `QSort` -/

/-- What a call of `QSort` that returns makes of the vector, with two calls or with one. -/
inductive Sorts : List ℤ → ℕ → ℤ → List ℤ → Prop where
 | done {a : List ℤ} {left : ℕ} {right : ℤ} (closed : ¬(left : ℤ) < right) : Sorts a left right a
 | step {a b c d : List ℤ} {left rounds pivot : ℕ} {right : ℤ} (longer : (left : ℤ) < right)
  (parted : partition rounds a left right.toNat = some (b, pivot))
  (front : Sorts b left (pivot - 1) c) (fits : ((pivot + 1 : ℕ) : ℤ) ≤ intMax)
  (back : Sorts c (pivot + 1) right d) : Sorts a left right d

variable {result : List ℤ × ℕ} {more : ℕ}

theorem partitionLoop_mono (grows : rounds ≤ more)
 (returned : partitionLoop key rounds a left right = some result) :
 partitionLoop key more a left right = some result := by
 induction rounds generalizing a left right more with
 | zero => cases returned
 | succ rounds ih =>
  obtain ⟨more, rfl⟩ : ∃ more', more = more' + 1 := ⟨more - 1, by omega⟩
  rw [partitionLoop] at returned ⊢
  split
  · rename_i closing
    rw [if_pos closing] at returned
    obtain ⟨right', scanned, rest⟩ := Option.bind_eq_some_iff.mp returned
    obtain ⟨b, copied, rest⟩ := Option.bind_eq_some_iff.mp rest
    obtain ⟨left', scanned', rest⟩ := Option.bind_eq_some_iff.mp rest
    obtain ⟨c, copied', rest⟩ := Option.bind_eq_some_iff.mp rest
    simp_all
  · simp_all

theorem partition_mono (grows : rounds ≤ more)
 (returned : partition rounds a left right = some result) :
 partition more a left right = some result := by
 rw [partition] at returned ⊢
 obtain ⟨a₁, swapped₁, rest⟩ := Option.bind_eq_some_iff.mp returned
 obtain ⟨a₂, swapped₂, rest⟩ := Option.bind_eq_some_iff.mp rest
 obtain ⟨a₃, swapped₃, rest⟩ := Option.bind_eq_some_iff.mp rest
 obtain ⟨key, here, rest⟩ := Option.bind_eq_some_iff.mp rest
 obtain ⟨parted, looped, rest⟩ := Option.bind_eq_some_iff.mp rest
 simp only [swapped₁, swapped₂, swapped₃, here, partitionLoop_mono grows looped, Option.bind_some]
 exact rest

theorem partition_unique {result' : List ℤ × ℕ} {rounds' : ℕ}
 (returned : partition rounds a left right = some result)
 (returned' : partition rounds' a left right = some result') : result = result' := by
 have more := partition_mono (le_max_left rounds rounds') returned
 have more' := partition_mono (le_max_right rounds rounds') returned'
 exact Option.some.inj (more.symm.trans more')

variable {d : List ℤ}

theorem Sorts.unique {d' : List ℤ} {right : ℤ} (sorts : Sorts a left right d)
 (sorts' : Sorts a left right d') : d = d' := by
 induction sorts generalizing d' with
 | done closed =>
  cases sorts' with
  | done _ => rfl
  | step longer _ _ _ _ => exact absurd longer closed
 | step longer parted front fits back ihFront ihBack =>
  cases sorts' with
  | done closed => exact absurd longer closed
  | step _ parted' front' _ back' =>
   obtain ⟨rfl, rfl⟩ := Prod.mk.inj (partition_unique parted parted')
   obtain rfl := ihFront front'
   exact ihBack back'

theorem qSort_mono {right : ℤ} {depth deeper : ℕ} (grows : rounds ≤ more) (deepens : depth ≤ deeper)
 (returned : qSort rounds depth a left right = some d) :
 qSort more deeper a left right = some d := by
 induction depth generalizing a left right d deeper with
 | zero => cases returned
 | succ depth ih =>
  obtain ⟨deeper, rfl⟩ : ∃ deeper', deeper = deeper' + 1 := ⟨deeper - 1, by omega⟩
  have deepens := Nat.le_of_succ_le_succ deepens
  rw [qSort] at returned ⊢
  split
  · rename_i longer
    rw [if_pos longer] at returned
    obtain ⟨⟨b, pivot⟩, parted, rest⟩ := Option.bind_eq_some_iff.mp returned
    obtain ⟨c, front, rest⟩ := Option.bind_eq_some_iff.mp rest
    obtain ⟨next, fits, rest⟩ := Option.bind_eq_some_iff.mp rest
    rw [partition_mono grows parted, Option.bind_some]
    simp only [ih deepens front, fits, Option.bind_some]
    exact ih deepens rest
  · rename_i closed
    rwa [if_neg closed] at returned

theorem qSort_iff {right : ℤ} :
 (∃ rounds depth, qSort rounds depth a left right = some d) ↔ Sorts a left right d := by
 constructor
 · rintro ⟨rounds, depth, returned⟩
   induction depth generalizing a left right d with
   | zero => cases returned
   | succ depth ih =>
    rw [qSort] at returned
    split at returned
    · rename_i longer
      obtain ⟨⟨b, pivot⟩, parted, rest⟩ := Option.bind_eq_some_iff.mp returned
      obtain ⟨c, front, rest⟩ := Option.bind_eq_some_iff.mp rest
      obtain ⟨next, fits, rest⟩ := Option.bind_eq_some_iff.mp rest
      rw [checkedNat] at fits
      split at fits
      · rename_i small
        obtain rfl := Option.some.inj fits
        exact .step longer parted (ih front) small (ih rest)
      · cases fits
    · rename_i closed
      exact Option.some.inj returned ▸ .done closed
 · intro sorts
   induction sorts with
   | done closed => exact ⟨0, 1, by rw [qSort, if_neg closed]⟩
   | @step a b c d left rounds pivot right longer parted _ fits _ ihFront ihBack =>
    obtain ⟨rounds₁, depth₁, front⟩ := ihFront
    obtain ⟨rounds₂, depth₂, back⟩ := ihBack
    refine ⟨rounds + rounds₁ + rounds₂, depth₁ + depth₂ + 1, ?_⟩
    rw [qSort, if_pos longer, partition_mono (by omega) parted, Option.bind_some]
    simp only [qSort_mono (show rounds₁ ≤ rounds + rounds₁ + rounds₂ by omega)
     (show depth₁ ≤ depth₁ + depth₂ by omega) front, checkedNat_eq fits, Option.bind_some]
    exact qSort_mono (by omega) (by omega) back

theorem tailLoop_mono {call call' : List ℤ → ℕ → ℤ → Option (List ℤ)} {right : ℤ} {count' : ℕ}
 (grows : rounds ≤ more)
 (calls : ∀ a left right d, call a left right = some d → call' a left right = some d)
 (counts : count ≤ count') (returned : tailLoop rounds call count a left right = some d) :
 tailLoop more call' count' a left right = some d := by
 induction count generalizing a left count' with
 | zero => cases returned
 | succ count ih =>
  obtain ⟨count', rfl⟩ : ∃ count'', count' = count'' + 1 := ⟨count' - 1, by omega⟩
  rw [tailLoop] at returned ⊢
  split
  · rename_i longer
    rw [if_pos longer] at returned
    obtain ⟨⟨b, pivot⟩, parted, rest⟩ := Option.bind_eq_some_iff.mp returned
    obtain ⟨c, front, rest⟩ := Option.bind_eq_some_iff.mp rest
    obtain ⟨next, fits, rest⟩ := Option.bind_eq_some_iff.mp rest
    rw [partition_mono grows parted, Option.bind_some]
    simp only [calls _ _ _ _ front, fits, Option.bind_some]
    exact ih (Nat.le_of_succ_le_succ counts) rest
  · rename_i closed
    rwa [if_neg closed] at returned

theorem qSortTail_mono {right : ℤ} {depth deeper : ℕ} (grows : rounds ≤ more)
 (deepens : depth ≤ deeper) (returned : qSortTail rounds depth a left right = some d) :
 qSortTail more deeper a left right = some d := by
 induction depth generalizing a left right d deeper with
 | zero => cases returned
 | succ depth ih =>
  obtain ⟨deeper, rfl⟩ : ∃ deeper', deeper = deeper' + 1 := ⟨deeper - 1, by omega⟩
  exact tailLoop_mono grows (fun a left right d => ih (Nat.le_of_succ_le_succ deepens)) grows
   returned

theorem tailLoop_sorts {call : List ℤ → ℕ → ℤ → Option (List ℤ)} {right : ℤ}
 (calls : ∀ a left right d, call a left right = some d → Sorts a left right d)
 (returned : tailLoop rounds call count a left right = some d) : Sorts a left right d := by
 induction count generalizing a left with
 | zero => cases returned
 | succ count ih =>
  rw [tailLoop] at returned
  split at returned
  · rename_i longer
    obtain ⟨⟨b, pivot⟩, parted, rest⟩ := Option.bind_eq_some_iff.mp returned
    obtain ⟨c, front, rest⟩ := Option.bind_eq_some_iff.mp rest
    obtain ⟨next, fits, rest⟩ := Option.bind_eq_some_iff.mp rest
    rw [checkedNat] at fits
    split at fits
    · rename_i small
      obtain rfl := Option.some.inj fits
      exact .step longer parted (calls _ _ _ _ front) small (ih rest)
    · cases fits
  · rename_i closed
    exact Option.some.inj returned ▸ .done closed

theorem qSortTail_iff {right : ℤ} :
 (∃ rounds depth, qSortTail rounds depth a left right = some d) ↔ Sorts a left right d := by
 constructor
 · rintro ⟨rounds, depth, returned⟩
   induction depth generalizing a left right d with
   | zero => cases returned
   | succ depth ih => exact tailLoop_sorts (fun a left right d => ih) returned
 · intro sorts
   induction sorts with
   | done closed => exact ⟨1, 1, by rw [qSortTail, tailLoop, if_neg closed]⟩
   | @step a b c d left rounds pivot right longer parted _ fits _ ihFront ihBack =>
    obtain ⟨rounds₁, depth₁, front⟩ := ihFront
    obtain ⟨rounds₂, depth₂, back⟩ := ihBack
    obtain ⟨depth₂, rfl⟩ : ∃ depth, depth₂ = depth + 1 := by
     cases depth₂ with
     | zero => cases back
     | succ depth => exact ⟨depth, rfl⟩
    refine ⟨rounds + rounds₁ + rounds₂ + 1, depth₁ + depth₂ + 1, ?_⟩
    rw [qSortTail, tailLoop, if_pos longer, partition_mono (by omega) parted,
     Option.bind_some]
    simp only [qSortTail_mono (show rounds₁ ≤ rounds + rounds₁ + rounds₂ + 1 by omega)
     (show depth₁ ≤ depth₁ + depth₂ by omega) front, checkedNat_eq fits, Option.bind_some]
    refine tailLoop_mono (by omega) (fun a left right d => ?_) (by omega) back
    exact qSortTail_mono (by omega) (by omega)

/-- The version that loops on the right part returns what the recursive one returns. -/
theorem qSort_eq_qSortTail {right : ℤ} :
 (∃ rounds depth, qSort rounds depth a left right = some d) ↔
  ∃ rounds depth, qSortTail rounds depth a left right = some d :=
 qSort_iff.trans qSortTail_iff.symm

/-! ### Sorting -/

section

variable (parted : Partitioned start first last a place key)
include parted

theorem Partitioned.slice_eq :
 slice a first (last + 1) =
  slice a first place ++ key :: slice a (place + 1) (last + 1) := by
 have upper := parted.upper
 rw [← slice_append parted.lower (show place ≤ last + 1 by omega),
  slice_cons (Nat.lt_succ_of_le upper) parted.pivot]

theorem Partitioned.smaller_of_mem {value : ℤ} (member : value ∈ slice a first place) :
 value < key := by
 obtain ⟨i, after, before, here⟩ := mem_slice.mp member
 exact parted.smaller i value after before here

theorem Partitioned.larger_of_mem {value : ℤ} (member : value ∈ slice a (place + 1) (last + 1)) :
 key < value := by
 obtain ⟨i, after, before, here⟩ := mem_slice.mp member
 exact parted.larger i value after (Nat.le_of_lt_succ before) here

end

theorem slice_short (short : last ≤ left + 1) :
 (slice a left last).Pairwise (· ≤ ·) ∧ (slice a left last).Nodup := by
 have few : (slice a left last).length ≤ 1 := by
  rw [slice, length_drop, length_take]
  omega
 cases hd : slice a left last with
 | nil => exact ⟨List.Pairwise.nil, nodup_nil⟩
 | cons value rest =>
  rw [hd, length_cons] at few
  obtain rfl := length_eq_zero_iff.mp (show rest.length = 0 by omega)
  exact ⟨pairwise_singleton _ _, nodup_singleton _⟩

open Library.SearchTree in
theorem Sorts.sorted {right : ℤ} (sorts : Sorts a left right d) (range : right = (last : ℤ) - 1)
 (ordered : left ≤ last) (inside : last ≤ a.length) :
 Rearranged left last a d ∧ (slice d left last).Pairwise (· ≤ ·) ∧
  (slice a left last).Nodup := by
 induction sorts generalizing last with
 | @done a left right closed =>
  obtain ⟨sorted, distinct⟩ := slice_short (a := a) (show last ≤ left + 1 by omega)
  exact ⟨.refl _ _ _, sorted, distinct⟩
 | @step a b c d left rounds pivot right longer parted _ fits _ ihFront ihBack =>
  obtain ⟨size, rfl⟩ : ∃ size, last = size + 1 := ⟨last - 1, by omega⟩
  have to_nat : right.toNat = size := by omega
  rw [to_nat] at parted
  obtain ⟨parts, once⟩ := partition_partitioned (by omega) (by omega) parted
  have lower := parts.lower
  have upper := parts.upper
  have b_size := parts.rearranged.length_eq
  obtain ⟨moved₁, sorted₁, distinct₁⟩ := ihFront rfl lower (by omega)
  have c_size := moved₁.length_eq
  obtain ⟨moved₂, sorted₂, distinct₂⟩ := ihBack range (by omega) (by omega)
  have slice_left : slice d left pivot = slice c left pivot :=
   moved₂.slice_before (Nat.le_succ pivot)
  have at_pivot : d[pivot]? = some (pivotValue a left size) := by
   rw [moved₂.getElem?_before (Nat.lt_succ_self pivot), moved₁.getElem?_behind le_rfl]
   exact parts.pivot
  have slice_right : slice c (pivot + 1) (size + 1) = slice b (pivot + 1) (size + 1) :=
   moved₁.slice_behind (Nat.le_succ pivot)
  have perm₁ := moved₁.slice_perm lower
  have perm₂ := moved₂.slice_perm (show pivot + 1 ≤ size + 1 by omega)
  refine ⟨(parts.rearranged.trans (moved₁.widen le_rfl (by omega))).trans
   (moved₂.widen (by omega) le_rfl), ?_, ?_⟩
  · rw [← slice_append lower (show pivot ≤ size + 1 by omega),
     slice_cons (Nat.lt_succ_of_le upper) at_pivot, slice_left]
    refine pairwise_middle.mpr ⟨fun value member => ?_, fun value member => ?_, sorted₁,
     sorted₂⟩
    · exact (parts.smaller_of_mem (perm₁.mem_iff.mp member)).le
    · exact (parts.larger_of_mem (slice_right ▸ perm₂.mem_iff.mp member)).le
  · have whole := parts.rearranged.slice_perm (show left ≤ size + 1 by omega)
    rw [← whole.nodup_iff, parts.slice_eq]
    rw [slice_right] at distinct₂
    refine nodup_middle.mpr (nodup_cons.mpr ⟨fun member => ?_,
     nodup_append.mpr ⟨distinct₁, distinct₂, fun value member other member' => ?_⟩⟩)
    · rcases mem_append.mp member with front | back
      · exact lt_irrefl _ (parts.smaller_of_mem front)
      · exact lt_irrefl _ (parts.larger_of_mem back)
    · exact ((parts.smaller_of_mem member).trans (parts.larger_of_mem member')).ne

theorem count_pivotValue (closing : left < right) (inside : right < a.length)
 (distinct : (slice a left (right + 1)).Nodup) :
 (slice a left (right + 1)).count (pivotValue a left right) = 1 := by
 obtain ⟨a', moved, here, -⟩ := partition_eq closing inside
 have member : pivotValue a left right ∈ slice a' left (right + 1) :=
  mem_slice.mpr ⟨left, le_rfl, by omega, here⟩
 rw [(moved.slice_perm (by omega)).mem_iff] at member
 exact count_eq_one_of_mem distinct member

/-- The place behind every pivot of a range up to `right` is an `int`. -/
inductive PivotsFit (right : ℤ) : List ℤ → ℕ → Prop where
 | closed {a : List ℤ} {left : ℕ} (closed : ¬(left : ℤ) < right) : PivotsFit right a left
 | next {a : List ℤ} {left : ℕ}
  (fits : ∀ rounds b pivot, partition rounds a left right.toNat = some (b, pivot) →
   ((pivot + 1 : ℕ) : ℤ) ≤ intMax)
  (rest : ∀ rounds b pivot c, partition rounds a left right.toNat = some (b, pivot) →
   Sorts b left (pivot - 1) c → PivotsFit right c (pivot + 1)) : PivotsFit right a left

theorem Sorts.pivotsFit {right : ℤ} (sorts : Sorts a left right d) :
 PivotsFit right a left := by
 induction sorts with
 | done closed => exact .closed closed
 | step longer parted front fits back _ ihBack =>
  refine .next (fun rounds b pivot parted' => ?_) fun rounds b pivot c parted' front' => ?_
  · obtain ⟨rfl, rfl⟩ := Prod.mk.inj (partition_unique parted parted')
    exact fits
  · obtain ⟨rfl, rfl⟩ := Prod.mk.inj (partition_unique parted parted')
    obtain rfl := front.unique front'
    exact ihBack

theorem exists_sorts {size : ℕ} (few : last - left ≤ size) (ordered : left ≤ last)
 (inside : last ≤ a.length) (distinct : (slice a left last).Nodup)
 (fits : (last : ℤ) ≤ intMax ∨ PivotsFit ((last : ℤ) - 1) a left) :
 ∃ d, Sorts a left ((last : ℤ) - 1) d := by
 induction size generalizing a left last with
 | zero => exact ⟨a, .done (by omega)⟩
 | succ size ih =>
  by_cases longer : (left : ℤ) < (last : ℤ) - 1
  · obtain ⟨right, rfl⟩ : ∃ right, last = right + 1 := ⟨last - 1, by omega⟩
    have to_nat : (((right + 1 : ℕ) : ℤ) - 1).toNat = right := by omega
    have once := count_pivotValue (by omega) (by omega) distinct
    obtain ⟨⟨b, pivot⟩, parted⟩ :=
     partition_returns (by omega) (by omega) once (Nat.lt_succ_self (right - left))
    obtain ⟨parts, -⟩ := partition_partitioned (by omega) (by omega) parted
    have lower := parts.lower
    have upper := parts.upper
    have b_size := parts.rearranged.length_eq
    have whole := parts.rearranged.slice_perm (show left ≤ right + 1 by omega)
    rw [← whole.nodup_iff, parts.slice_eq] at distinct
    have front_distinct := distinct.sublist (sublist_append_left _ _)
    have back_distinct := distinct.sublist
     ((sublist_cons_self _ _).trans (sublist_append_right _ _))
    rw [← to_nat] at parted
    obtain ⟨next_fits, rest⟩ : ((pivot + 1 : ℕ) : ℤ) ≤ intMax ∧ ∀ c,
     Sorts b left (pivot - 1) c → (((right + 1 : ℕ) : ℤ) ≤ intMax ∨
      PivotsFit (((right + 1 : ℕ) : ℤ) - 1) c (pivot + 1)) := by
     rcases fits with small | fits
     · exact ⟨by omega, fun c _ => .inl small⟩
     · cases fits with
       | closed closed => exact absurd longer closed
       | next fits rest =>
        exact ⟨fits _ b pivot parted, fun c front => .inr (rest _ b pivot c parted front)⟩
    obtain ⟨c, front⟩ := ih (by omega) lower (by omega) front_distinct
     (.inl (by omega))
    obtain ⟨moved, -, -⟩ := front.sorted rfl lower (by omega)
    have c_size := moved.length_eq
    rw [← moved.slice_behind (Nat.le_succ pivot)] at back_distinct
    obtain ⟨d, back⟩ := ih (a := c) (by omega) (by omega) (by omega) back_distinct
     (rest c front)
    exact ⟨d, .step longer parted front next_fits back⟩
  · exact ⟨a, .done longer⟩

/-- How many places the call of `QuickSort` sorts; a longer vector does not fit its `int`. -/
def covered (a : List ℤ) : ℕ := (asInt (a.length - 1) + 1).toNat

/-- The values that are sorted are all different, the others are in order behind them, and the
places behind the pivots are `int`s. -/
structure Sortable (a : List ℤ) : Prop where
 distinct : (a.take (covered a)).Nodup
 rest_sorted : (a.drop (covered a)).Pairwise (· ≤ ·)
 rest_larger : ∀ first ∈ a.take (covered a), ∀ second ∈ a.drop (covered a), first ≤ second
 pivots_fit : PivotsFit (asInt (a.length - 1)) a 0

theorem covered_le (a : List ℤ) : covered a ≤ a.length := by
 rw [covered, asInt]
 omega

theorem sorts_whole_iff {size : ℕ} (inside : size ≤ a.length) :
 (∃ d, Sorts a 0 ((size : ℤ) - 1) d ∧ d.Perm a ∧ d.Pairwise (· ≤ ·)) ↔
  (a.take size).Nodup ∧ (a.drop size).Pairwise (· ≤ ·) ∧
   (∀ first ∈ a.take size, ∀ second ∈ a.drop size, first ≤ second) ∧
    PivotsFit ((size : ℤ) - 1) a 0 := by
 constructor
 · rintro ⟨d, sorts, -, increasing⟩
   obtain ⟨moved, -, distinct⟩ := sorts.sorted rfl (Nat.zero_le size) inside
   have front := moved.slice_perm (Nat.zero_le size)
   rw [← take_append_drop size d, pairwise_append] at increasing
   obtain ⟨-, behind, across⟩ := increasing
   rw [moved.behind] at behind across
   exact ⟨distinct, behind, fun first member => across first (front.mem_iff.mpr member),
    sorts.pivotsFit⟩
 · rintro ⟨distinct, behind, across, fits⟩
   obtain ⟨d, sorts⟩ := exists_sorts le_rfl (Nat.zero_le size) inside distinct (.inr fits)
   obtain ⟨moved, sorted, -⟩ := sorts.sorted rfl (Nat.zero_le size) inside
   have front := moved.slice_perm (Nat.zero_le size)
   refine ⟨d, sorts, moved.perm, ?_⟩
   rw [← take_append_drop size d, pairwise_append, moved.behind]
   exact ⟨sorted, behind, fun first member => across first (front.mem_iff.mp member)⟩

theorem sorts_iff_sortable (a : List ℤ) :
 (∃ d, Sorts a 0 (asInt (a.length - 1)) d ∧ d.Perm a ∧ d.Pairwise (· ≤ ·)) ↔ Sortable a := by
 have inside := covered_le a
 by_cases nothing : asInt (a.length - 1) < -1
 · have none : covered a = 0 := by
    rw [covered]
    omega
   have closed : ¬((0 : ℕ) : ℤ) < asInt (a.length - 1) := by omega
   constructor
   · rintro ⟨d, sorts, -, increasing⟩
     obtain rfl := (Sorts.done closed).unique sorts
     refine ⟨?_, ?_, ?_, .closed closed⟩
     · rw [none]
       exact nodup_nil
     · rwa [none]
     · rw [none]
       exact fun first member => absurd member not_mem_nil
   · intro sortable
     refine ⟨a, .done closed, List.Perm.refl a, ?_⟩
     have whole := sortable.rest_sorted
     rwa [none] at whole
 · have range : asInt (a.length - 1) = (covered a : ℤ) - 1 := by
    rw [covered]
    omega
   rw [range, sorts_whole_iff inside, ← range]
   exact ⟨fun ⟨distinct, behind, across, fits⟩ => ⟨distinct, behind, across, fits⟩,
    fun ⟨distinct, behind, across, fits⟩ => ⟨distinct, behind, across, fits⟩⟩

theorem sortable_iff_nodup (short : (a.length : ℤ) ≤ intMax) : Sortable a ↔ a.Nodup := by
 have range : asInt (a.length - 1) = (a.length : ℤ) - 1 := by
  rw [intMax] at short
  rw [asInt]
  omega
 have whole : covered a = a.length := by
  rw [covered, range]
  omega
 constructor
 · intro sortable
   have distinct := sortable.distinct
   rwa [whole, take_length] at distinct
 · intro distinct
   rw [← take_length (l := a)] at distinct
   obtain ⟨d, sorts⟩ :=
    exists_sorts le_rfl (Nat.zero_le a.length) le_rfl distinct (.inl short)
   refine ⟨whole.symm ▸ distinct, ?_, ?_, range.symm ▸ sorts.pivotsFit⟩
   · rw [whole, drop_length]
     exact List.Pairwise.nil
   · rw [whole, drop_length]
     exact fun first _ second member => absurd member not_mem_nil

/-- What is claimed of `Partition`: it returns the place of its pivot. -/
def Parted (a : List ℤ) (left right : ℕ) : Prop :=
 ∃ rounds b place pivot, partition rounds a left right = some (b, place) ∧
  left ≤ place ∧ place ≤ right ∧ b[place]? = some pivot ∧
  (∀ i value, left ≤ i → i < place → b[i]? = some value → value ≤ pivot) ∧
  ∀ i value, place < i → i ≤ right → b[i]? = some value → pivot ≤ value

theorem parted_iff (closing : left < right) (inside : right < a.length) :
 Parted a left right ↔
  (slice a left (right + 1)).count (pivotValue a left right) = 1 := by
 constructor
 · rintro ⟨rounds, b, place, pivot, returned, -⟩
   exact (partition_partitioned closing inside returned).2
 · intro once
   obtain ⟨⟨b, place⟩, returned⟩ :=
    partition_returns closing inside once (Nat.lt_succ_self (right - left))
   obtain ⟨parts, -⟩ := partition_partitioned closing inside returned
   exact ⟨_, b, place, _, returned, parts.lower, parts.upper, parts.pivot,
    fun i value after before here => (parts.smaller i value after before here).le,
    fun i value behind to_last here => (parts.larger i value behind to_last here).le⟩

/-- Both versions of `QuickSort` sort exactly the sortable vectors, and `Partition` returns exactly
where the value of its pivot is there once. -/
theorem quickSort_sorts_iff (a : List ℤ) :
 ((∃ rounds depth d, quickSort rounds depth a = some d ∧ d.Perm a ∧
  d.Pairwise (· ≤ ·)) ↔ Sortable a) ∧
 ((∃ rounds depth d, quickSortTail rounds depth a = some d ∧ d.Perm a ∧
  d.Pairwise (· ≤ ·)) ↔ Sortable a) ∧
 ∀ left right, left < right → right < a.length →
  (Parted a left right ↔
   (slice a left (right + 1)).count (pivotValue a left right) = 1) := by
 refine ⟨?_, ?_, fun left right => parted_iff⟩
 · rw [← sorts_iff_sortable]
   constructor
   · rintro ⟨rounds, depth, d, returned, rest⟩
     exact ⟨d, qSort_iff.mp ⟨rounds, depth, returned⟩, rest⟩
   · rintro ⟨d, sorts, rest⟩
     obtain ⟨rounds, depth, returned⟩ := qSort_iff.mpr sorts
     exact ⟨rounds, depth, d, returned, rest⟩
 · rw [← sorts_iff_sortable]
   constructor
   · rintro ⟨rounds, depth, d, returned, rest⟩
     exact ⟨d, qSortTail_iff.mp ⟨rounds, depth, returned⟩, rest⟩
   · rintro ⟨d, sorts, rest⟩
     obtain ⟨rounds, depth, returned⟩ := qSortTail_iff.mpr sorts
     exact ⟨rounds, depth, d, returned, rest⟩

theorem quickSort_sorts_iff_three :
 (∃ rounds depth d, quickSort rounds depth [3, 1, 2] = some d ∧ d.Perm [3, 1, 2] ∧
  d.Pairwise (· ≤ ·)) ∧ Parted [3, 1, 2] 0 2 :=
 ⟨(quickSort_sorts_iff [3, 1, 2]).1.mpr ((sortable_iff_nodup (by decide)).mpr (by decide)),
  ((quickSort_sorts_iff [3, 1, 2]).2.2 0 2 (by decide) (by decide)).mpr (by decide)⟩

/-- Two equal values: neither version returns, and neither does `Partition`. -/
theorem quickSort_not_sorts_equal :
 (¬∃ rounds depth d, quickSort rounds depth [1, 1] = some d ∧ d.Perm [1, 1] ∧
  d.Pairwise (· ≤ ·)) ∧
 (¬∃ rounds depth d, quickSortTail rounds depth [1, 1] = some d ∧ d.Perm [1, 1] ∧
  d.Pairwise (· ≤ ·)) ∧ ¬Parted [1, 1] 0 1 := by
 have not_sortable : ¬Sortable [1, 1] := fun sortable =>
  absurd ((sortable_iff_nodup (by decide)).mp sortable) (by decide)
 refine ⟨?_, ?_, ?_⟩
 · rintro ⟨rounds, depth, d, returned, increasing⟩
   exact not_sortable ((sorts_iff_sortable _).mp
    ⟨d, qSort_iff.mp ⟨rounds, depth, returned⟩, increasing⟩)
 · rintro ⟨rounds, depth, d, returned, increasing⟩
   exact not_sortable ((sorts_iff_sortable _).mp
    ⟨d, qSortTail_iff.mp ⟨rounds, depth, returned⟩, increasing⟩)
 · intro parted
   exact absurd ((parted_iff (by decide) (by decide)).mp parted) (by decide)

end MyNotes.Algorithms.QuickSort
