/-
Binary heaps in the first cells of an array, with the largest value at the root.

The parent of cell `i` is cell `(i - 1) / 2`.  A sift holds one value in its hand; the
array is then taken with that value in the hole, and a step of the sift exchanges the
hole with a neighbour.
-/

import Mathlib.Data.Multiset.Range

namespace MyNotes.Library.BinaryHeap

open Function Multiset Equiv

variable {α : Type*}

def contents (cells : ℕ → α) (size : ℕ) : Multiset α := (Multiset.range size).map cells

theorem contents_succ (cells : ℕ → α) (size : ℕ) :
 contents cells (size + 1) = cells size ::ₘ contents cells size := by
 unfold contents
 rw [range_succ, map_cons]

theorem card_contents (cells : ℕ → α) (size : ℕ) : (contents cells size).card = size := by
 unfold contents
 rw [card_map, card_range]

variable {size : ℕ} {cells : ℕ → α}

theorem mem_contents {value : α} : value ∈ contents cells size ↔ ∃ i < size, cells i = value := by
 unfold contents
 simp

theorem contents_congr {other : ℕ → α} (same : ∀ i < size, cells i = other i) :
 contents cells size = contents other size :=
 map_congr rfl fun i member => same i (mem_range.mp member)

variable {i : ℕ}

theorem contents_update_outside (cells : ℕ → α) (outside : size ≤ i) (value : α) :
 contents (update cells i value) size = contents cells size :=
 contents_congr fun _ below => update_of_ne (by omega) _ _

theorem contents_update (cells : ℕ → α) (below : i < size) (value : α) :
 cells i ::ₘ contents (update cells i value) size =
  value ::ₘ contents cells size := by
 induction size with
 | zero => omega
 | succ size ih =>
  rw [contents_succ, contents_succ]
  by_cases last : i = size
  · rw [last, update_self, contents_update_outside cells (Nat.le_refl _)]
    exact cons_swap _ _ _
  · rw [update_of_ne (Ne.symm last), cons_swap, ih (by omega),
     cons_swap]

theorem contents_swap (cells : ℕ → α) {j : ℕ} (first : i < size) (second : j < size) :
 contents (cells ∘ Equiv.swap i j) size = contents cells size := by
 have permuted : (range size).map (Equiv.swap i j) = range size := by
  refine (Multiset.Nodup.ext ?_ (nodup_range size)).mpr ?_
  · exact (nodup_range size).map (Equiv.injective _)
  · intro k
    rw [mem_map, mem_range]
    constructor
    · intro ⟨k, below, same⟩
      rw [mem_range] at below
      rw [← same, Equiv.swap_apply_def]
      split
      · exact second
      · split
        · exact first
        · exact below
    · intro below
      refine ⟨Equiv.swap i j k, mem_range.mpr ?_, Equiv.swap_apply_self i j k⟩
      rw [Equiv.swap_apply_def]
      split
      · exact second
      · split
        · exact first
        · exact below
 unfold contents
 rw [← map_map, permuted]

theorem update_update_swap (cells : ℕ → α) {hole other : ℕ} (different : hole ≠ other)
 (held : α) :
 update (update cells hole (cells other)) other held =
  update cells hole held ∘ swap hole other := by
 funext i
 rw [comp_apply, swap_apply_def]
 by_cases atOther : i = other
 · simp_all
 · rw [update_of_ne atOther]
   by_cases atHole : i = hole
   · grind
   · simp_all

theorem swap_other {j k : ℕ} (first : k ≠ i) (second : k ≠ j) :
 (cells ∘ swap i j) k = cells k := by
 grind

theorem swap_left (cells : ℕ → α) (i j : ℕ) : (cells ∘ swap i j) i = cells j := by
 rw [comp_apply, swap_apply_left]

/-! ### The order -/

variable [LinearOrder α] {cells : ℕ → α} {size hole : ℕ}

def Ordered (cells : ℕ → α) (size : ℕ) : Prop :=
 ∀ i, 0 < i → i < size → cells i ≤ cells ((i - 1) / 2)

/-- In order but for the children of the hole, which are below its parent. -/
structure DownReady (cells : ℕ → α) (size hole : ℕ) : Prop where
 except : ∀ i, 0 < i → i < size → (i - 1) / 2 ≠ hole → cells i ≤ cells ((i - 1) / 2)
 grand : 0 < hole → ∀ i, 0 < i → i < size → (i - 1) / 2 = hole →
  cells i ≤ cells ((hole - 1) / 2)

/-- In order but for the hole and its parent, which is above the children of the hole. -/
structure UpReady (cells : ℕ → α) (size hole : ℕ) : Prop where
 except : ∀ i, 0 < i → i < size → i ≠ hole → cells i ≤ cells ((i - 1) / 2)
 grand : 0 < hole → ∀ i, 0 < i → i < size → (i - 1) / 2 = hole →
  cells i ≤ cells ((hole - 1) / 2)

theorem DownReady.finish (ready : DownReady cells size hole)
 (stops : ∀ i, 0 < i → i < size → (i - 1) / 2 = hole → cells i ≤ cells hole) :
 Ordered cells size := by
 intro i positive below
 by_cases child : (i - 1) / 2 = hole
 · simp_all
 · exact ready.except i positive below child

theorem UpReady.finish (ready : UpReady cells size hole)
 (stops : 0 < hole → cells hole ≤ cells ((hole - 1) / 2)) : Ordered cells size := by
 intro i positive below
 by_cases atHole : i = hole
 · simp_all
 · exact ready.except i positive below atHole

theorem DownReady.swap (ready : DownReady cells size hole) {child : ℕ} (positive : 0 < child)
 (below : child < size) (isChild : (child - 1) / 2 = hole)
 (largest : ∀ i, 0 < i → i < size → (i - 1) / 2 = hole → cells i ≤ cells child)
 (less : cells hole < cells child) :
 DownReady (cells ∘ swap hole child) size child := by
 constructor
 · intro i iPositive iBelow notChild
   by_cases atChild : i = child
   · grind
   · by_cases atHole : i = hole
     · rw [atHole, swap_left, swap_other (by omega) (by omega)]
       exact ready.grand (by omega) child positive below isChild
     · rw [swap_other atHole atChild]
       by_cases sibling : (i - 1) / 2 = hole
       · simp_all
       · rw [swap_other sibling notChild]
         exact ready.except i iPositive iBelow sibling
 · intro _ i iPositive iBelow under
   rw [isChild, swap_left, swap_other (by omega) (by omega), ← under]
   exact ready.except i iPositive iBelow (by omega)

theorem UpReady.swap (ready : UpReady cells size hole) (positive : 0 < hole)
 (less : cells ((hole - 1) / 2) < cells hole) :
 UpReady (cells ∘ Equiv.swap hole ((hole - 1) / 2)) size ((hole - 1) / 2) := by
 constructor
 · intro i iPositive iBelow notParent
   by_cases atHole : i = hole
   · grind
   · rw [swap_other atHole notParent]
     by_cases under : (i - 1) / 2 = hole
     · rw [under, swap_left]
       exact ready.grand positive i iPositive iBelow under
     · have old := ready.except i iPositive iBelow atHole
       by_cases sibling : (i - 1) / 2 = (hole - 1) / 2
       · grind
       · grind
 · intro parentPositive i iPositive iBelow under
   have grand := ready.except ((hole - 1) / 2) parentPositive (by omega) (by omega)
   have above : (cells ∘ Equiv.swap hole ((hole - 1) / 2)) (((hole - 1) / 2 - 1) / 2) =
    cells (((hole - 1) / 2 - 1) / 2) := swap_other (by omega) (by omega)
   rw [above]
   by_cases atHole : i = hole
   · rw [atHole, swap_left]
     exact grand
   · rw [swap_other atHole (by omega)]
     have old := ready.except i iPositive iBelow atHole
     rw [under] at old
     exact old.trans grand

/-! ### Where the sifts start -/

theorem Ordered.upReady (ordered : Ordered cells size) (value : α) :
 UpReady (update cells size value) (size + 1) size := by
 constructor
 · intro i positive below notLast
   rw [update_of_ne notLast, update_of_ne (by omega)]
   exact ordered i positive (by omega)
 · intro _ i _ below under
   omega

theorem Ordered.downReady (ordered : Ordered cells (size + 1)) {value : α} (below : hole ≤ size)
 (fits : 0 < hole → value ≤ cells ((hole - 1) / 2)) :
 DownReady (update cells hole value) size hole := by
 constructor
 · intro i positive iBelow notChild
   rw [update_of_ne notChild]
   by_cases atHole : i = hole
   · rw [atHole, update_self]
     exact fits (by omega)
   · rw [update_of_ne atHole]
     exact ordered i positive (by omega)
 · intro holePositive i positive iBelow under
   have first := ordered i positive (by omega)
   rw [under] at first
   rw [update_of_ne (by omega), update_of_ne (by omega)]
   exact first.trans (ordered hole holePositive (by omega))

end MyNotes.Library.BinaryHeap
