/-
The weight of a minimum spanning tree by Prim, of the algorithm notes.

`INT_MAX` stands for no distance at all when the next vertex is looked for.  So no vertex is found
where all that are left are just that far from the ones reached.
-/

import MyNotes.Algorithms.AdjacencyMatrix
import MyNotes.Library.CheckedInt
import MyNotes.Library.LeastScan
import MyNotes.Library.TreeGrowth

namespace MyNotes.Algorithms.Prim

open AdjacencyMatrix Library.CheckedInt Library.Fallible Library.LeastScan Library.TreeGrowth Finset
open Outcome
open Function
open Relation

variable {n : ℕ}

def abs (value : ℤ) : Except Fault ℤ := toInt value.natAbs

/-- `abs(points[i][0] - points[j][0]) + abs(points[i][1] - points[j][1])`. -/
def dist (points : Fin n → ℤ × ℤ) (i j : Fin n) : Except Fault ℤ :=
 (toInt ((points i).1 - (points j).1)).bind fun x =>
  (abs x).bind fun x =>
   (toInt ((points i).2 - (points j).2)).bind fun y =>
    (abs y).bind fun y => toInt (x + y)

/-- The body of the loops that fill the matrix; the inner one starts after `i`. -/
def fill (points : Fin n → ℤ × ℤ) (i : Fin n) (g : Fin n → Fin n → ℤ) (j : Fin n) :
 Except Fault (Fin n → Fin n → ℤ) :=
 if i < j then (dist points i j).map fun dist => put (put g j i dist) i j dist else .ok g

def matrix (points : Fin n → ℤ × ℤ) : Except Fault (Fin n → Fin n → ℤ) :=
 (List.finRange n).foldlM (fun g i => (List.finRange n).foldlM (fill points i) g) fun _ _ => 0

structure State (n : ℕ) where
 v : Fin n → Bool
 lowcost : Fin n → ℤ
 res : ℤ

def initial (g : Fin n → Fin n → ℤ) (start : Fin n) : State n where
 v := update (fun _ => false) start true
 lowcost := (List.finRange n).foldl
  (fun lowcost i => if i = start then lowcost else update lowcost i (g i start))
  fun _ => intMax
 res := 0

/-- The loop that brings `lowcost` up to date. -/
def improve (g : Fin n → Fin n → ℤ) (minIdx : Fin n) (v : Fin n → Bool) (lowcost : Fin n → ℤ) :
 Fin n → ℤ :=
 (List.finRange n).foldl
  (fun lowcost j =>
   if v j = false ∧ g j minIdx < lowcost j then update lowcost j (g j minIdx)
   else lowcost)
  lowcost

def round (g : Fin n → Fin n → ℤ) (s : State n) (_ : ℕ) : Except Fault (State n) :=
 let (minVal, minIdx) := leastScan (fun j => !s.v j) s.lowcost (intMax, none)
 match minIdx with
 | none => .error .index
 | some minIdx =>
  let v := update s.v minIdx true
  (toInt (s.res + minVal)).map fun res => ⟨v, improve g minIdx v s.lowcost, res⟩

/-- There is one round fewer than there are points. -/
def prim (points : Fin n → ℤ × ℤ) (start : Fin n) : Except Fault ℤ :=
 (matrix points).bind fun g =>
  ((List.range (n - 1)).foldlM (round g) (initial g start)).map fun s => s.res

def minCostConnectPoints (points : Fin (n + 1) → ℤ × ℤ) : Except Fault ℤ :=
 prim points ⟨0, n.succ_pos⟩

/-! ### The distances -/

variable {points : Fin n → ℤ × ℤ} {allowed : Fault → Prop} {i j k start : Fin n}

def manhattan (points : Fin n → ℤ × ℤ) (i j : Fin n) : ℤ :=
 ((points i).1 - (points j).1).natAbs + ((points i).2 - (points j).2).natAbs

theorem manhattan_comm (points : Fin n → ℤ × ℤ) (i j : Fin n) :
 manhattan points i j = manhattan points j i := by
 unfold manhattan
 omega

theorem manhattan_nonneg (points : Fin n → ℤ × ℤ) (i j : Fin n) : 0 ≤ manhattan points i j := by
 unfold manhattan
 omega

theorem fits_natAbs (value : ℤ) (small : (value.natAbs : ℤ) ≤ intMax) :
 Fits value ∧ Fits value.natAbs := by
 unfold intMax at small
 unfold Fits intMax
 omega

theorem dist_eq (near : manhattan points i j ≤ intMax) :
 dist points i j = .ok (manhattan points i j) := by
 have fits : Fits (manhattan points i j) := by
  have positive := manhattan_nonneg points i j
  unfold Fits
  omega
 unfold manhattan at near
 have first := fits_natAbs ((points i).1 - (points j).1) (by omega)
 have second := fits_natAbs ((points i).2 - (points j).2) (by omega)
 simp only [dist, abs, toInt_eq first.1, toInt_eq first.2, toInt_eq second.1, toInt_eq second.2,
  Except.bind]
 exact toInt_eq fits

/-- The entries of these pairs are filled in, both ways. -/
def Filled (points : Fin n → ℤ × ℤ) (done : Fin n → Fin n → Prop) (g : Fin n → Fin n → ℤ) : Prop :=
 (∀ a, g a a = 0) ∧
  ∀ a b, a < b → done a b → g a b = manhattan points a b ∧ g b a = manhattan points a b

variable {done : Fin n → Fin n → Prop} {g : Fin n → Fin n → ℤ}

theorem Filled.put (filled : Filled points done g) (less : i < j) :
 Filled points (fun a b => done a b ∨ a = i ∧ b = j)
  (put (put g j i (manhattan points i j)) i j (manhattan points i j)) := by
 constructor
 · intro a
   have other : ¬ (a = i ∧ a = j) := fun both => less.ne (both.1.symm.trans both.2)
   have other' : ¬ (a = j ∧ a = i) := fun both => other both.symm
   simp only [AdjacencyMatrix.put, other, other', if_false]
   exact filled.1 a
 · intro a b order among
   by_cases here : a = i ∧ b = j
   · obtain ⟨rfl, rfl⟩ := here
     simp [AdjacencyMatrix.put]
   · have there : ¬ (b = i ∧ a = j) := by
      rintro ⟨rfl, rfl⟩
      exact lt_asymm less order
     have back : ¬ (b = j ∧ a = i) := fun both => here both.symm
     have there' : ¬ (a = j ∧ b = i) := fun both => there both.symm
     simpa only [AdjacencyMatrix.put, here, there, back, there', if_false] using
      filled.2 a b order (among.resolve_right here)

theorem Filled.skip (filled : Filled points done g) (other : ¬ i < j) :
 Filled points (fun a b => done a b ∨ a = i ∧ b = j) g := by
 refine ⟨filled.1, fun a b order among => filled.2 a b order (among.resolve_right ?_)⟩
 rintro ⟨rfl, rfl⟩
 exact other order

theorem fill_outcome (near : manhattan points i j ≤ intMax) (filled : Filled points done g) :
 Outcome allowed (fill points i g j) (Filled points fun a b => done a b ∨ a = i ∧ b = j) := by
 rw [fill, dist_eq near]
 split
 · rename_i less
   exact returned (filled.put less)
 · rename_i other
   exact returned (filled.skip other)

theorem row_outcome {rows : Fin n → Prop} (near : ∀ i j, manhattan points i j ≤ intMax)
 (filled : Filled points (fun a _ => rows a) g) :
 Outcome allowed ((List.finRange n).foldlM (fill points i) g)
  (Filled points fun a _ => rows a ∨ a = i) := by
 have columns : Outcome allowed ((List.finRange n).foldlM (fill points i) g)
  (Filled points fun a _ => rows a ∨ a = i ∧ True) := by
  apply finRange fun columns => Filled points fun a b => rows a ∨ a = i ∧ columns b
  · simpa using filled
  · intro columns j g _ filled
    apply (fill_outcome (near i j) filled).mono
    grind
 simpa only [and_true] using columns

theorem matrix_outcome (near : ∀ i j, manhattan points i j ≤ intMax) :
 Outcome allowed (matrix points) fun g => g = manhattan points := by
 have filled : Outcome allowed (matrix points) (Filled points fun _ _ => True) := by
  apply finRange fun rows => Filled points fun a _ => rows a
  · exact ⟨fun _ => rfl, fun _ _ _ => False.elim⟩
  · exact fun rows i g _ filled => row_outcome near filled
 apply filled.mono
 intro g filled
 funext a b
 rcases lt_trichotomy a b with less | rfl | greater
 · exact (filled.2 a b less trivial).1
 · rw [filled.1 a, manhattan]
   omega
 · rw [manhattan_comm]
   exact (filled.2 b a greater trivial).2

/-! ### One round -/

def cost (points : Fin n → ℤ × ℤ) : Sym2 (Fin n) → ℤ :=
 Sym2.lift ⟨manhattan points, manhattan_comm points⟩

theorem cost_nonneg (points : Fin n → ℤ × ℤ) (e : Sym2 (Fin n)) : 0 ≤ cost points e := by
 induction e with
 | h i j => exact manhattan_nonneg points i j

/-- The points are this near, and the distance is not the one that stands for none. -/
def Near (points : Fin n → ℤ × ℤ) (i j : Fin n) : Prop := manhattan points i j < intMax

/-- There is a way between any two points over others, each near the one before. -/
def Chained (points : Fin n → ℤ × ℤ) : Prop := ∀ i j, ReflTransGen (Near points) i j

def visited (s : State n) : Finset (Fin n) := Finset.univ.filter fun j => s.v j = true

structure Progress (points : Fin n → ℤ × ℤ) (start : Fin n) (s : State n) : Prop where
 begun : s.v start = true
 positive : 0 ≤ s.res
 reached : ∀ j, s.v j = false → ∃ u, s.v u = true ∧ s.lowcost j = manhattan points u j
 least : ∀ j, s.v j = false → ∀ u, s.v u = true → s.lowcost j ≤ manhattan points u j
 grown : ∀ total, Growth (cost points) (visited s) total →
  Growth (cost points) {start} (s.res + total)
 chained : ∀ u, s.v u = true → ReflTransGen (Near points) start u

variable {s : State n}

theorem mem_visited : j ∈ visited s ↔ s.v j = true := by
 rw [visited, mem_filter]
 exact and_iff_right (mem_univ j)

section

variable (g : Fin n → Fin n → ℤ)

theorem initial_lowcost (other : i ≠ start) : (initial g start).lowcost i = g i start := by
 have body : (fun (lowcost : Fin n → ℤ) i => if i = start then lowcost
  else update lowcost i (g i start)) =
  fun lowcost i => update lowcost i (if i = start then lowcost i else g i start) := by
  funext lowcost i
  split
  · exact (update_eq_self i lowcost).symm
  · rfl
 rw [initial]
 simp only [body]
 rw [foldl_update fun i old => if i = start then old else g i start]
 exact if_neg other

theorem improve_eq (k : Fin n) (v : Fin n → Bool) (lowcost : Fin n → ℤ) (j : Fin n) :
 improve g k v lowcost j = if v j = false ∧ g j k < lowcost j then g j k else lowcost j := by
 have body : (fun (lowcost : Fin n → ℤ) j =>
  if v j = false ∧ g j k < lowcost j then update lowcost j (g j k) else lowcost) =
  fun lowcost j => update lowcost j
   (if v j = false ∧ g j k < lowcost j then g j k else lowcost j) := by
  funext lowcost j
  split
  · rfl
  · exact (update_eq_self j lowcost).symm
 rw [improve, body, foldl_update fun j old => if v j = false ∧ g j k < old then g j k else old]

def add (g : Fin n → Fin n → ℤ) (s : State n) (k : Fin n) : State n where
 v := update s.v k true
 lowcost := improve g k (update s.v k true) s.lowcost
 res := s.res + s.lowcost k

theorem add_v (s : State n) (k j : Fin n) : (add g s k).v j = true ↔ j = k ∨ s.v j = true := by
 by_cases same : j = k <;> simp [add, same]

end

theorem add_v_eq_false (left : (add g s k).v j = false) :
 j ≠ k ∧ s.v j = false := by
 have not := mt (add_v g s k j).mpr (by simp [left])
 simpa using not

theorem add_lowcost (left : (add g s k).v j = false) :
 (add g s k).lowcost j = min (g j k) (s.lowcost j) := by
 change improve g k (update s.v k true) s.lowcost j = _
 rw [improve_eq]
 split
 · omega
 · rename_i other
   exact (min_eq_right (Int.not_lt.mp fun less => other ⟨left, less⟩)).symm

theorem visited_add (g : Fin n → Fin n → ℤ) (s : State n) (k : Fin n) :
 visited (add g s k) = insert k (visited s) := by
 ext j
 rw [mem_visited, add_v, mem_insert, mem_visited]

theorem Progress.growth (progress : Progress points start s) (left : s.v k = false)
 (least : ∀ j, s.v j = false → s.lowcost k ≤ s.lowcost j) {total : ℤ}
 (growth : Growth (cost points) (insert k (visited s)) total) :
 Growth (cost points) (visited s) (s.lowcost k + total) := by
 obtain ⟨u, inside, known⟩ := progress.reached k left
 rw [known]
 refine .grow (u := u) (mem_visited.mpr inside) ?_ ?_ growth
 · rw [mem_visited, left]
   exact Bool.false_ne_true
 · intro u' among x outside
   have outside' : s.v x = false := by
    rw [mem_visited] at outside
    simpa using outside
   change manhattan points u k ≤ manhattan points u' x
   rw [← known]
   exact (least x outside').trans (progress.least x outside' u' (mem_visited.mp among))

theorem Progress.add (progress : Progress points start s) (left : s.v k = false)
 (below : s.lowcost k < intMax) (least : ∀ j, s.v j = false → s.lowcost k ≤ s.lowcost j) :
 Progress points start (add (manhattan points) s k) where
 begun := (add_v _ s k start).mpr (.inr progress.begun)
 positive := by
  obtain ⟨u, _, known⟩ := progress.reached k left
  have start := progress.positive
  have step := manhattan_nonneg points u k
  change 0 ≤ s.res + s.lowcost k
  omega
 reached j left' := by
  rw [add_lowcost left']
  rcases min_choice (manhattan points j k) (s.lowcost j) with near | old
  · exact ⟨k, (add_v _ s k k).mpr (.inl rfl), near.trans (manhattan_comm points j k)⟩
  · obtain ⟨u, inside, known⟩ := progress.reached j (add_v_eq_false left').2
    exact ⟨u, (add_v _ s k u).mpr (.inr inside), old.trans known⟩
 least j left' u inside := by
  rw [add_lowcost left']
  rcases (add_v _ s k u).mp inside with rfl | old
  · rw [manhattan_comm points u j]
    exact min_le_left _ _
  · exact (min_le_right _ _).trans (progress.least j (add_v_eq_false left').2 u old)
 grown total growth := by
  rw [visited_add] at growth
  have before := progress.grown _ (progress.growth left least growth)
  rwa [← add_assoc] at before
 chained u inside := by
  rcases (add_v _ s k u).mp inside with rfl | old
  · obtain ⟨u', inside', known⟩ := progress.reached u left
    exact (progress.chained u' inside').tail (known.symm.trans_lt below)
  · exact progress.chained u old

theorem card_visited_add (g : Fin n → Fin n → ℤ) (left : s.v k = false) :
 (visited (add g s k)).card = (visited s).card + 1 := by
 rw [visited_add, card_insert_of_notMem]
 rw [mem_visited, left]
 exact Bool.false_ne_true

theorem Progress.fits (small : ∃ total ∈ treeWeights (cost points), total ≤ intMax)
 (progress : Progress points start s) (left : s.v k = false)
 (least : ∀ j, s.v j = false → s.lowcost k ≤ s.lowcost j) : Fits (s.res + s.lowcost k) := by
 obtain ⟨rest, positive, growth⟩ :=
  exists_growth (cost_nonneg points) (insert_nonempty k (visited s))
 have whole := progress.grown _ (progress.growth left least growth)
 obtain ⟨weight, among, below⟩ := small
 have atMost := (whole.isLeast (cost_nonneg points)).2 among
 obtain ⟨u, _, known⟩ := progress.reached k left
 have step := manhattan_nonneg points u k
 have first := progress.positive
 unfold Fits
 omega

theorem Progress.not_chained (progress : Progress points start s) (left : s.v j = false)
 (far : ∀ k, s.v k = false → ¬ s.lowcost k < intMax) : ¬ Chained points := by
 intro chained
 have inside : ∀ y, ReflTransGen (Near points) start y → s.v y = true := by
  intro y reach
  induction reach with
  | refl => exact progress.begun
  | @tail x y _ near ih =>
   cases outside : s.v y with
   | true => rfl
   | false => exact absurd ((progress.least y outside x ih).trans_lt near) (far y outside)
 rw [inside j (chained start j)] at left
 cases left

theorem round_outcome (small : ∃ total ∈ treeWeights (cost points), total ≤ intMax)
 (progress : Progress points start s) (left : s.v j = false) (i : ℕ) :
 Outcome (fun fault => fault = .index ∧ ¬ Chained points) (round (manhattan points) s i)
  fun next => Progress points start next ∧ (visited next).card = (visited s).card + 1 := by
 by_cases found : ∃ k, s.v k = false ∧ s.lowcost k < intMax
 · obtain ⟨k, left, below⟩ := found
   obtain ⟨k, isFree, same, least⟩ := exists_leastScan (fun j => !s.v j) s.lowcost
    (intMax, none) (by simp [left]) below
   have next : s.v k = false := by simpa using isFree
   have nearest : ∀ j, s.v j = false → s.lowcost k ≤ s.lowcost j := fun j left =>
    least j (by simp [left])
   have below := (nearest _ left).trans_lt below
   rw [round]
   simp only [same]
   rw [toInt_eq (progress.fits small next nearest)]
   exact returned ⟨progress.add next below nearest, card_visited_add _ next⟩
 · have far : ∀ k, s.v k = false → ¬ s.lowcost k < intMax := fun k left below =>
    found ⟨k, left, below⟩
   have none := leastScan_eq (fun j => !s.v j) s.lowcost (intMax, none)
    fun k isFree => far k (by simpa using isFree)
   rw [round]
   simp only [none]
   exact stopped ⟨rfl, progress.not_chained left far⟩

/-! ### All rounds -/

theorem initial_v (g : Fin n → Fin n → ℤ) (start j : Fin n) :
 (initial g start).v j = true ↔ j = start := by
 by_cases same : j = start <;> simp [initial, same]

theorem visited_initial (g : Fin n → Fin n → ℤ) (start : Fin n) :
 visited (initial g start) = {start} := by
 ext j
 rw [mem_visited, initial_v, mem_singleton]

theorem progress_initial (points : Fin n → ℤ × ℤ) (start : Fin n) :
 Progress points start (initial (manhattan points) start) := by
 have first := (initial_v (manhattan points) start start).mpr rfl
 have low : ∀ j, (initial (manhattan points) start).v j = false →
  (initial (manhattan points) start).lowcost j = manhattan points start j := by
  intro j left
  have other : j ≠ start := by
   rintro rfl
   rw [first] at left
   cases left
  rw [initial_lowcost _ other, manhattan_comm]
 constructor
 case begun => exact first
 case positive => exact le_rfl
 case reached => grind
 case least =>
  intro j left u inside
  rw [(initial_v _ start u).mp inside, low j left]
 case grown =>
  intro total growth
  rw [visited_initial] at growth
  change Growth (cost points) {start} (0 + total)
  rwa [zero_add]
 case chained =>
  intro u inside
  rw [(initial_v _ start u).mp inside]

theorem rounds_outcome (small : ∃ total ∈ treeWeights (cost points), total ≤ intMax)
 (start : Fin n) :
 Outcome (fun fault => fault = .index ∧ ¬ Chained points)
  ((List.range (n - 1)).foldlM (round (manhattan points)) (initial (manhattan points) start))
  fun s => Progress points start s ∧ (visited s).card = (List.range (n - 1)).length + 1 := by
 apply foldlM fun (rounds : List ℕ) s =>
  Progress points start s ∧ (visited s).card = rounds.length + 1
 · refine ⟨progress_initial points start, ?_⟩
   rw [visited_initial, card_singleton]
   rfl
 · rintro rounds i rest s parts ⟨progress, count⟩
   have length := congrArg List.length parts
   obtain ⟨j, left⟩ : ∃ j, s.v j = false := by
    by_contra none
    have all : visited s = Finset.univ := filter_true_of_mem fun j _ => by
     simpa using not_exists.mp none j
    simp_all
   apply (round_outcome small progress left i).mono
   simp_all

theorem chain_symm (reach : ReflTransGen (Near points) i j) : ReflTransGen (Near points) j i := by
 induction reach with
 | refl => exact .refl
 | @tail x y _ near ih => exact .head ((manhattan_comm points y x).trans_lt near) ih

theorem chained_of_start (reach : ∀ u, ReflTransGen (Near points) start u) : Chained points :=
 fun i j => (chain_symm (reach i)).trans (reach j)

theorem prim_outcome (near : ∀ i j, manhattan points i j ≤ intMax)
 (small : ∃ total ∈ treeWeights (cost points), total ≤ intMax) (start : Fin n) :
 Outcome (fun fault => fault = .index ∧ ¬ Chained points) (prim points start) fun res =>
  IsLeast (treeWeights (cost points)) res ∧ Chained points := by
 apply (matrix_outcome near).bind
 rintro _ rfl
 apply (rounds_outcome small start).map
 rintro s ⟨progress, count⟩
 have several := start.pos
 rw [List.length_range] at count
 have all := eq_univ_of_card (visited s) (by rw [count, Fintype.card_fin]; omega)
 have growth := progress.grown 0 (all ▸ .all)
 rw [add_zero] at growth
 exact ⟨growth.isLeast (cost_nonneg points),
  chained_of_start fun u => progress.chained u (mem_visited.mp (all ▸ mem_univ u))⟩

/-- Where the distances fit, and a spanning tree that comes to no more than `INT_MAX`: the result is
the weight of a minimum spanning tree, from any start the same, if and only if any two points have
a chain of points between them with distances below `INT_MAX`.  Otherwise an index is -1. -/
theorem prim_isLeast_iff (near : ∀ i j, manhattan points i j ≤ intMax)
 (small : ∃ total ∈ treeWeights (cost points), total ≤ intMax) (start : Fin n) :
 ((∃ res, prim points start = .ok res ∧ IsLeast (treeWeights (cost points)) res ∧
  ∀ other, prim points other = .ok res) ↔ Chained points) ∧
  (¬ Chained points → prim points start = .error .index) := by
 have outcome := prim_outcome near small
 constructor
 · constructor
   · rintro ⟨res, returned, _⟩
     exact ((outcome start).2 res returned).2
   · intro chained
     have result := fun other => (outcome other).exists_ok fun fault index => index.2 chained
     obtain ⟨res, returned⟩ := result start
     have least := ((outcome start).2 res returned).1
     refine ⟨res, returned, least, fun other => ?_⟩
     obtain ⟨res', returned'⟩ := result other
     rw [returned', ((outcome other).2 res' returned').1.unique least]
 · intro apart
   cases run : prim points start with
   | error fault => rw [((outcome start).1 fault run).1]
   | ok res => exact absurd ((outcome start).2 res run).2 apart

/-- Points 0 and 1, with point 2 on the way between them. -/
def onLine (near far : ℤ) (i : Fin 3) : ℤ × ℤ :=
 if i.val = 0 then (0, 0) else if i.val = 1 then (far, 0) else (near, 0)

theorem onLine_near {near far : ℤ} (positive : 0 ≤ near) (between : near ≤ far) (i j : Fin 3) :
 manhattan (onLine near far) i j ≤ far := by
 unfold manhattan onLine
 split <;> split <;> grind

theorem onLine_small {near far : ℤ} (positive : 0 ≤ near) (between : near ≤ far) :
 ∃ total ∈ treeWeights (cost (onLine near far)), total ≤ far := by
 obtain ⟨total, _, growth⟩ := exists_growth (cost_nonneg (onLine near far))
  (singleton_nonempty 0)
 have two : ReflTransGen (Step {s(0, 2), s(2, 1)} {(0 : Fin 3)}) 0 2 := .single (.inl (by simp))
 have reach : ∀ y, ReflTransGen (Step {s(0, 2), s(2, 1)} {(0 : Fin 3)}) 0 y := fun
  | 0 => .refl
  | 1 => two.tail (.inl (by simp))
  | 2 => two
 have joins : Joins {s(0, 2), s(2, 1)} {(0 : Fin 3)} := fun x y =>
  (symm_reach (reach x)).trans (reach y)
 have atMost := growth.le_sum (cost_nonneg _) (mem_singleton_self 0) joins
 rw [sum_pair (by decide)] at atMost
 refine ⟨total, (growth.isLeast (cost_nonneg _)).1, atMost.trans ?_⟩
 change manhattan (onLine near far) 0 2 + manhattan (onLine near far) 2 1 ≤ far
 simp only [manhattan, onLine]
 grind

theorem prim_onLine : ∃ res, prim (onLine 3 7) 0 = .ok res ∧
 IsLeast (treeWeights (cost (onLine 3 7))) res ∧ ∀ other, prim (onLine 3 7) other = .ok res := by
 have correct := @prim_isLeast_iff 3 (onLine 3 7)
  (fun i j => (onLine_near (by decide) (by decide) i j).trans (by decide))
  ((onLine_small (by decide) (by decide)).imp fun _ both => ⟨both.1, both.2.trans (by decide)⟩) 0
 have chained : Chained (onLine 3 7) := fun i j =>
  .single ((onLine_near (by decide) (by decide) i j).trans_lt (by decide))
 exact correct.1.mpr chained

/-- Two points whose distance to the start is `INT_MAX` itself: no next point is found. -/
theorem prim_farthest :
 (∀ i j, manhattan (onLine 2147483647 2147483647) i j ≤ intMax) ∧
  (∃ total ∈ treeWeights (cost (onLine 2147483647 2147483647)), total ≤ intMax) ∧
  minCostConnectPoints (onLine 2147483647 2147483647) = .error .index :=
 ⟨onLine_near (by decide) (by decide), onLine_small (by decide) (by decide), rfl⟩

end MyNotes.Algorithms.Prim
