/-
Graphs as matrices of the lengths of their edges, of the algorithm notes.
-/

import MyNotes.Library.WeightedWalk

namespace MyNotes.Algorithms.AdjacencyMatrix

open Library.WeightedWalk

/-- `a[v][w] = value;`. -/
def put {n : ℕ} {α : Type*} (a : Fin n → Fin n → α) (v w : Fin n) (value : α) :
 Fin n → Fin n → α :=
 fun v' w' => if v' = v ∧ w' = w then value else a v' w'

variable {V : Type*} {ma : V → V → ℤ} {INF d : ℤ} {arc : V → V → ℤ → Prop} {v w : V}

/-- The edges of the matrix: an entry `INF` is a missing one. -/
def edge (ma : V → V → ℤ) (INF : ℤ) (v x : V) (cost : ℤ) : Prop :=
 v ≠ x ∧ ma v x ≠ INF ∧ cost = ma v x

/-- The matrices that the shortest paths are for: `INF` is larger than the length of every path. -/
structure Network (ma : V → V → ℤ) (INF : ℤ) : Prop where
 diagonal : ∀ v, ma v v = 0
 nonneg : ∀ v w, 0 ≤ ma v w
 longer : ∀ v w rest length, (v :: rest).Nodup → Walk (edge ma INF) v w rest length → length < INF

/-- A path has one edge less than there are vertices, at most. -/
theorem network_of_le {n : ℕ} {ma : Fin n → Fin n → ℤ} {most : ℤ} (diagonal : ∀ v, ma v v = 0)
 (nonneg : ∀ v w, 0 ≤ ma v w) (atMost : ∀ v w, ma v w ≠ INF → ma v w ≤ most)
 (larger : ∀ edges < n, most * edges < INF) : Network ma INF where
 diagonal := diagonal
 nonneg := nonneg
 longer v w rest length simple walk := by
  have edges : rest.length + 1 ≤ n := by simpa using simple.length_le_card
  have short := walk.le_mul fun v x cost along => along.2.2 ▸ atMost v x along.2.1
  exact short.trans_lt (larger rest.length edges)

variable (network : Network ma INF)
include network

theorem Network.pos (v : V) : 0 < INF :=
 network.longer v v [] 0 (List.nodup_singleton v) (.here v)

theorem Network.lt {cost : ℤ} (along : edge ma INF v w cost) : cost < INF := by
 have short := network.longer v w [w] (cost + 0) (by simpa using along.1) (.step along (.here w))
 omega

theorem Network.atMost (v w : V) : ma v w ≤ INF := by
 by_cases same : v = w
 · subst same
   have zero := network.diagonal v
   have positive := network.pos v
   omega
 · by_cases missing : ma v w = INF
   · omega
   · have short := network.lt ⟨same, missing, rfl⟩
     omega

theorem Network.edge_nonneg (v x : V) (cost : ℤ) (along : edge ma INF v x cost) : 0 ≤ cost := by
 rw [along.2.2]
 exact network.nonneg v x

theorem Network.distance (sub : ∀ v x cost, arc v x cost → edge ma INF v x cost) (atMost : d ≤ INF)
 (least : ∀ rest length, Walk arc v w rest length → d ≤ length)
 (found : d < INF → ∃ rest, Walk arc v w rest d) : Distance arc INF v w d := by
 by_cases reaches : Reaches arc v w
 · obtain ⟨rest, length, walk⟩ := reaches
   have costs : ∀ v x cost, arc v x cost → 0 ≤ cost := fun v x cost along =>
    network.edge_nonneg v x cost (sub v x cost along)
   obtain ⟨rest, length, _, simple, walk⟩ := walk.exists_nodup costs
   have short := network.longer v w rest length simple (walk.mono sub)
   have below := least rest length walk
   exact .inl ⟨found (by omega), least⟩
 · refine .inr ⟨reaches, ?_⟩
   by_contra other
   obtain ⟨rest, walk⟩ := found (by omega)
   exact reaches ⟨rest, d, walk⟩

theorem Network.lt_of_reaches (known : Distance (edge ma INF) INF v w d)
 (reaches : Reaches (edge ma INF) v w) : d < INF := by
 rcases known with least | ⟨apart, _⟩
 · obtain ⟨rest, length, walk⟩ := reaches
   obtain ⟨rest, length, _, simple, walk⟩ := walk.exists_nodup network.edge_nonneg
   exact Int.lt_of_le_of_lt (least.2 rest length walk)
    (network.longer v w rest length simple walk)
 · exact absurd reaches apart

omit network

/-! ### A detour -/

/-- The way from 0 to 2 over 1 is shorter than the edge, and there is no way back. -/
def detour (v w : Fin 3) : ℤ :=
 if v = w then 0 else if v = 0 ∧ w = 1 then 2 else if v = 1 ∧ w = 2 then 3
 else if v = 0 then 9 else 20

theorem detour_edge {v x : Fin 3} {cost : ℤ} (along : edge detour 20 v x cost) :
 v = 0 ∧ x = 1 ∧ cost = 2 ∨ v = 0 ∧ x = 2 ∧ cost = 9 ∨ v = 1 ∧ x = 2 ∧ cost = 3 := by
 obtain ⟨apart, present, rfl⟩ := along
 revert v x
 decide

theorem detour_network : Network detour 20 :=
 @network_of_le 20 3 detour 9 (by decide) (by decide) (by decide) (by decide)

theorem detour_shortest : Shortest (edge detour 20) 0 2 5 := by
 have walk : Walk (edge detour 20) 0 2 [1, 2] (2 + (3 + 0)) :=
  .step ⟨by decide, by decide, rfl⟩ (.step ⟨by decide, by decide, rfl⟩ (.here 2))
 refine ⟨⟨_, walk⟩, fun rest length walk => ?_⟩
 have grows := walk.le_add (fun x => min 5 (detour 0 x)) fun v x cost along => by
  obtain ⟨apart, present, rfl⟩ := along
  revert v x
  decide
 change 5 ≤ 0 + length at grows
 omega

end MyNotes.Algorithms.AdjacencyMatrix
