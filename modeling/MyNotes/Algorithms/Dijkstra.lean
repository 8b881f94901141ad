/-
Shortest paths from one vertex by Dijkstra, of the algorithm notes.

The lengths start from the row of vertex 0, whichever the start is.  So they are the distances from
vertex 0 in the graph without the start, and right for another start only where these are the same.
-/

import MyNotes.Algorithms.AdjacencyMatrix
import MyNotes.Library.CheckedInt
import MyNotes.Library.LeastScan

namespace MyNotes.Algorithms.Dijkstra

open AdjacencyMatrix Library.CheckedInt Library.Fallible Library.LeastScan Library.WeightedWalk
open List Finset
open Int
open Function

variable {n : ℕ}

/-- `fa` has the vertices that are settled, and `P` is -1 where `none` is here. -/
structure State (n : ℕ) where
 fa : Fin n → Bool
 P : Fin n → Option (Fin n)
 D : Fin n → ℤ

/-- The body of the loop that brings `P` and `D` up to date. -/
def relax (ma : Fin n → Fin n → ℤ) (min : ℤ) (k : Fin n) (s : State n) (j : Fin n) :
 Except Fault (State n) :=
 if s.fa j then .ok s
 else
  (toInt (min + ma k j)).map fun length =>
   if length < s.D j then
    { s with D := update s.D j length, P := update s.P j (some k) }
   else s

/-- A round of the outer loop, with the `k` of the round before; -1 is no index. -/
def round (ma : Fin n → Fin n → ℤ) (s : State n × Option (Fin n)) (_ : ℕ) :
 Except Fault (State n × Option (Fin n)) :=
 let (min, k) := leastScan (fun j => !s.1.fa j) s.1.D (intMax, s.2)
 match k with
 | none => .error .index
 | some k =>
  ((List.finRange n).foldlM (relax ma min k)
   { s.1 with fa := update s.1.fa k true }).map fun s => (s, some k)

def initial (ma : Fin (n + 1) → Fin (n + 1) → ℤ) (v0 : Fin (n + 1)) : State (n + 1) where
 fa := update (fun _ => false) v0 true
 P _ := none
 D := update (ma 0) v0 0

/-- The outer loop has one round fewer than there are vertices. -/
def shortestPath_Dijkstra (ma : Fin (n + 1) → Fin (n + 1) → ℤ) (v0 : Fin (n + 1)) :
 Except Fault (State (n + 1)) :=
 ((List.range n).foldlM (round ma) (initial ma v0, none)).map fun s => s.1

/-- The vertices that the loop of the output prints after `j`, before it prints the start, in at
most so many rounds. -/
def printLoop (P : Fin n → Option (Fin n)) : ℕ → Fin n → Option (List (Fin n))
 | 0, _ => none
 | rounds + 1, j =>
  match P j with
  | none => some []
  | some k => (printLoop P rounds k).map fun path => k :: path

/-! ### One round -/

variable {ma : Fin n → Fin n → ℤ} {s now : State n} {k j : Fin n} {allowed : Fault → Prop}

/-- The way over that vertex is shorter, to a vertex that is not settled. -/
def Nearer (ma : Fin n → Fin n → ℤ) (s : State n) (k j : Fin n) : Prop :=
 (s.fa j = false ∧ j ≠ k) ∧ s.D k + ma k j < s.D j

instance (ma : Fin n → Fin n → ℤ) (s : State n) (k j : Fin n) : Decidable (Nearer ma s k j) :=
 inferInstanceAs (Decidable (_ ∧ _))

/-- The vertex is settled, and the ways over it are taken where they are shorter. -/
def settle (ma : Fin n → Fin n → ℤ) (s : State n) (k : Fin n) : State n where
 fa := update s.fa k true
 P j := if Nearer ma s k j then some k else s.P j
 D j := if Nearer ma s k j then s.D k + ma k j else s.D j

theorem settle_of_nearer (nearer : Nearer ma s k j) :
 (settle ma s k).D j = s.D k + ma k j ∧ (settle ma s k).P j = some k :=
 ⟨if_pos nearer, if_pos nearer⟩

theorem settle_of_not_nearer (other : ¬ Nearer ma s k j) :
 (settle ma s k).D j = s.D j ∧ (settle ma s k).P j = s.P j :=
 ⟨if_neg other, if_neg other⟩

structure Partly (ma : Fin n → Fin n → ℤ) (s : State n) (k : Fin n) (done : Fin n → Prop)
 (now : State n) : Prop where
 fa : now.fa = (settle ma s k).fa
 reached : ∀ j, done j → now.D j = (settle ma s k).D j ∧ now.P j = (settle ma s k).P j
 other : ∀ j, ¬ done j → now.D j = s.D j ∧ now.P j = s.P j

variable {done : Fin n → Prop}

section

variable (partly : Partly ma s k done now)
include partly

theorem Partly.skip (new : ¬ done j) (other : ¬ Nearer ma s k j) :
 Partly ma s k (fun i => done i ∨ i = j) now where
 fa := partly.fa
 reached i among := by
  rcases among with before | rfl
  · exact partly.reached i before
  · rw [(settle_of_not_nearer other).1, (settle_of_not_nearer other).2]
    exact partly.other i new
 other i out := partly.other i fun before => out (.inl before)

theorem Partly.take (nearer : Nearer ma s k j) :
 Partly ma s k (fun i => done i ∨ i = j)
  { now with
   D := update now.D j (s.D k + ma k j), P := update now.P j (some k) } where
 fa := partly.fa
 reached i among := by
  by_cases same : i = j
  · subst same
    simp [settle_of_nearer nearer]
  · simpa [same] using partly.reached i (among.resolve_right same)
 other i out := by
  obtain ⟨before, apart⟩ := not_or.mp out
  simpa [apart] using partly.other i before

theorem Partly.fa_eq_false_iff : now.fa j = false ↔ s.fa j = false ∧ j ≠ k := by
 rw [partly.fa]
 by_cases same : j = k <;> simp [settle, same]

end

theorem relax_outcome (allows : ∀ j, ¬ Fits (s.D k + ma k j) → allowed .overflow)
 (partly : Partly ma s k done now) (new : ¬ done j) :
 Outcome allowed (relax ma (s.D k) k now j) (Partly ma s k fun i => done i ∨ i = j) := by
 have entry := (partly.other j new).1
 cases flag : now.fa j with
 | true =>
  have settled : ¬ Nearer ma s k j := fun nearer => by
   rw [partly.fa_eq_false_iff.mpr nearer.1] at flag
   cases flag
  rw [relax, if_pos flag]
  exact Outcome.returned (partly.skip new settled)
 | false =>
  rw [relax, if_neg (by simp [flag])]
  apply (toInt_outcome (allows j)).map
  rintro _ ⟨rfl, _⟩
  rw [entry]
  split
  · rename_i less
    exact partly.take ⟨partly.fa_eq_false_iff.mp flag, less⟩
  · rename_i other
    exact partly.skip new fun nearer => other nearer.2

theorem round_outcome (allows : ∀ k j, ¬ Fits (s.D k + ma k j) → allowed .overflow)
 (below : ∀ j, s.D j < intMax) (left : s.fa j = false) (last : Option (Fin n)) (i : ℕ) :
 Outcome allowed (round ma (s, last) i) fun next =>
  ∃ k, s.fa k = false ∧ (∀ j, s.fa j = false → s.D k ≤ s.D j) ∧ next.1 = settle ma s k := by
 obtain ⟨k, isFree, found, least⟩ := exists_leastScan (fun j => !s.fa j) s.D
  (intMax, last) (by simp [left]) (below j)
 have loop : Outcome allowed ((List.finRange n).foldlM (relax ma (s.D k) k)
  { s with fa := update s.fa k true }) (Partly ma s k fun _ => True) := by
  apply Outcome.finRange fun done => Partly ma s k done
  · exact ⟨rfl, nofun, fun _ _ => ⟨rfl, rfl⟩⟩
  · intro done j now new partly
    exact relax_outcome (allows k) partly new
 rw [round]
 simp only [found]
 apply loop.map
 intro now partly
 refine ⟨k, by simpa using isFree, fun j left => least j (by simp [left]), ?_⟩
 have lengths : now.D = (settle ma s k).D := funext fun j => (partly.reached j trivial).1
 have before : now.P = (settle ma s k).P := funext fun j => (partly.reached j trivial).2
 have flags := partly.fa
 cases now
 simp_all

/-! ### All rounds -/

def without (ma : Fin n → Fin n → ℤ) (INF : ℤ) (v0 v x : Fin n) (cost : ℤ) : Prop :=
 edge ma INF v x cost ∧ v ≠ v0 ∧ x ≠ v0

/-- The way back that `P` gives, over settled vertices to one whose length is still that of the
first row. -/
inductive Route (row : Fin n → ℤ) (arc : Fin n → Fin n → ℤ → Prop) (s : State n) : Fin n → Prop
 | root {j : Fin n} : s.P j = none → s.D j = row j → Route row arc s j
 | hop {j k : Fin n} {cost : ℤ} : s.P j = some k → s.fa k = true → arc k j cost →
  s.D j = s.D k + cost → Route row arc s k → Route row arc s j

/-- What holds between the rounds, when the lengths start from that row. -/
structure Progress (ma : Fin n → Fin n → ℤ) (INF : ℤ) (v0 : Fin n) (row : Fin n → ℤ)
 (s : State n) : Prop where
 start : s.fa v0 = true
 zero : s.D v0 = 0
 nonneg : ∀ j, 0 ≤ s.D j
 atMost : ∀ j, s.D j ≤ INF
 direct : ∀ j, j ≠ v0 → s.D j ≤ row j
 strict : ∀ j k, s.P j = some k → s.D j < row j
 ordered : ∀ k, k ≠ v0 → s.fa k = true → ∀ j, s.fa j = false → s.D k ≤ s.D j
 relaxed : ∀ k, k ≠ v0 → s.fa k = true → ∀ j, j ≠ v0 → s.D j ≤ s.D k + ma k j
 route : ∀ j, j ≠ v0 → s.D j < INF → Route row (without ma INF v0) s j

variable {INF : ℤ} {v0 : Fin n} {row : Fin n → ℤ} {arc : Fin n → Fin n → ℤ → Prop}

section

variable (ma : Fin n → Fin n → ℤ)

theorem settle_le (s : State n) (k j : Fin n) : (settle ma s k).D j ≤ s.D j := by
 by_cases nearer : Nearer ma s k j
 · rw [(settle_of_nearer nearer).1]
   exact le_of_lt nearer.2
 · exact le_of_eq (settle_of_not_nearer nearer).1

theorem settle_cases (s : State n) (k j : Fin n) :
 (settle ma s k).D j = s.D j ∨ (settle ma s k).D j = s.D k + ma k j := by
 by_cases nearer : Nearer ma s k j
 · exact .inr (settle_of_nearer nearer).1
 · exact .inl (settle_of_not_nearer nearer).1

theorem settle_fa (s : State n) (k j : Fin n) :
 (settle ma s k).fa j = true ↔ j = k ∨ s.fa j = true := by
 by_cases same : j = k <;> simp [settle, same]

theorem settle_eq_of_fa (settled : s.fa j = true) :
 (settle ma s k).D j = s.D j ∧ (settle ma s k).P j = s.P j :=
 settle_of_not_nearer fun nearer => by simp [nearer.1.1] at settled

theorem settle_self (s : State n) (k : Fin n) :
 (settle ma s k).D k = s.D k ∧ (settle ma s k).P k = s.P k :=
 settle_of_not_nearer fun nearer => nearer.1.2 rfl

end

theorem Route.settle (route : Route row arc s j) (other : ¬ Nearer ma s k j) :
 Route row arc (settle ma s k) j := by
 induction route with
 | root first direct =>
  have entry := settle_of_not_nearer other
  exact .root (entry.2.trans first) (entry.1.trans direct)
 | @hop j k' _ before settled along length _ ih =>
  have entry := settle_of_not_nearer other
  have entry' := settle_eq_of_fa ma (k := k) settled
  refine .hop (entry.2.trans before) ((settle_fa ma s k k').mpr (.inr settled)) along ?_
   (ih fun nearer => by simp [nearer.1.1] at settled)
  rw [entry.1, entry'.1]
  exact length

theorem Progress.ne_start (progress : Progress ma INF v0 row s) (left : s.fa k = false) :
 k ≠ v0 := by
 rintro rfl
 rw [progress.start] at left
 cases left

theorem settle_fa_eq_false (left : (settle ma s k).fa j = false) : j ≠ k ∧ s.fa j = false := by
 have not := mt (settle_fa ma s k j).mpr (by simp [left])
 simpa using not

variable {i : Fin n}

theorem Progress.settle_ordered (network : Network ma INF) (progress : Progress ma INF v0 row s)
 (left : s.fa k = false) (least : ∀ j, s.fa j = false → s.D k ≤ s.D j) (other : i ≠ v0)
 (settled : (settle ma s k).fa i = true) (later : (settle ma s k).fa j = false) :
 (settle ma s k).D i ≤ (settle ma s k).D j := by
 have unsettled := (settle_fa_eq_false later).2
 have length := network.nonneg k j
 have next := least j unsettled
 rcases (settle_fa ma s k i).mp settled with rfl | before
 · rw [(settle_self ma s i).1]
   rcases settle_cases ma s i j with same | less <;> omega
 · rw [(settle_eq_of_fa ma before).1]
   have first := progress.ordered i other before k left
   rcases settle_cases ma s k j with same | less <;> omega

theorem Progress.settle_relaxed (network : Network ma INF) (progress : Progress ma INF v0 row s)
 (left : s.fa k = false) (other : i ≠ v0) (settled : (settle ma s k).fa i = true)
 (target : j ≠ v0) : (settle ma s k).D j ≤ (settle ma s k).D i + ma i j := by
 have length := network.nonneg i j
 have below := settle_le ma s k j
 rcases (settle_fa ma s k i).mp settled with rfl | before
 · rw [(settle_self ma s i).1]
   cases flag : s.fa j with
   | true =>
    have first := progress.ordered j target flag i left
    omega
   | false =>
    by_cases nearer : Nearer ma s i j
    · exact le_of_eq (settle_of_nearer nearer).1
    · rw [(settle_of_not_nearer nearer).1]
      by_cases same : j = i
      · subst same
        omega
      · exact not_lt.mp fun less => nearer ⟨⟨flag, same⟩, less⟩
 · rw [(settle_eq_of_fa ma before).1]
   exact le_trans below (progress.relaxed i other before j target)

theorem Progress.settle_strict (progress : Progress ma INF v0 row s)
 (before : (settle ma s k).P j = some i) : (settle ma s k).D j < row j := by
 by_cases nearer : Nearer ma s k j
 · rw [(settle_of_nearer nearer).1]
   exact lt_of_lt_of_le nearer.2 (progress.direct j (progress.ne_start nearer.1.1))
 · rw [(settle_of_not_nearer nearer).1]
   exact progress.strict j i ((settle_of_not_nearer nearer).2.symm.trans before)

theorem Progress.settle_route (network : Network ma INF) (progress : Progress ma INF v0 row s)
 (left : s.fa k = false) (target : j ≠ v0) (short : (settle ma s k).D j < INF) :
 Route row (without ma INF v0) (settle ma s k) j := by
 by_cases nearer : Nearer ma s k j
 · have entry := settle_of_nearer nearer
   have own := progress.nonneg k
   have length := network.nonneg k j
   have apart := progress.ne_start left
   have way : Route row (without ma INF v0) (Dijkstra.settle ma s k) k :=
    (progress.route k apart (by omega)).settle fun same => same.1.2 rfl
   refine .hop entry.2 ((settle_fa ma s k k).mpr (.inl rfl))
    ⟨⟨Ne.symm nearer.1.2, by omega, rfl⟩, apart, target⟩ ?_ way
   rw [entry.1, (settle_self ma s k).1]
 · rw [(settle_of_not_nearer nearer).1] at short
   exact (progress.route j target short).settle nearer

theorem Progress.settle (network : Network ma INF) (progress : Progress ma INF v0 row s)
 (left : s.fa k = false) (least : ∀ j, s.fa j = false → s.D k ≤ s.D j) :
 Progress ma INF v0 row (settle ma s k) where
 start := (settle_fa ma s k v0).mpr (.inr progress.start)
 zero := (settle_eq_of_fa ma progress.start).1.trans progress.zero
 nonneg j := by
  have own := progress.nonneg j
  have way := progress.nonneg k
  have entry := network.nonneg k j
  rcases settle_cases ma s k j with same | less <;> omega
 atMost j := le_trans (settle_le ma s k j) (progress.atMost j)
 direct j other := le_trans (settle_le ma s k j) (progress.direct j other)
 strict _ _ := progress.settle_strict
 ordered _ other settled _ := progress.settle_ordered network left least other settled
 relaxed _ other settled _ := progress.settle_relaxed network left other settled
 route _ := progress.settle_route network left

theorem progress_initial {ma : Fin (n + 1) → Fin (n + 1) → ℤ} (network : Network ma INF)
 (v0 : Fin (n + 1)) : Progress ma INF v0 (ma 0) (initial ma v0) := by
 have others : ∀ j, j ≠ v0 → (initial ma v0).D j = ma 0 j := fun j other =>
  update_of_ne other _ _
 have own : (initial ma v0).D v0 = 0 := update_self v0 0 (ma 0)
 have only : ∀ k, (initial ma v0).fa k = true → k = v0 := by
  intro k settled
  by_contra other
  simp [initial, other] at settled
 constructor
 case start => exact update_self v0 true fun _ => false
 case zero => exact own
 case nonneg =>
  intro j
  by_cases same : j = v0
  · rw [same, own]
  · rw [others j same]
    exact network.nonneg 0 j
 case atMost =>
  intro j
  by_cases same : j = v0
  · rw [same, own]
    exact le_of_lt (network.pos v0)
  · rw [others j same]
    exact network.atMost 0 j
 case direct => simp_all
 case strict => exact fun j k before => nomatch before
 case ordered => grind
 case relaxed => grind
 case route => exact fun j other _ => .root rfl (others j other)

def settled (s : State n) : Finset (Fin n) := Finset.univ.filter fun j => s.fa j = true

theorem mem_settled : j ∈ settled s ↔ s.fa j = true := by
 rw [settled, Finset.mem_filter]
 exact and_iff_right (mem_univ j)

theorem card_settled_settle (ma : Fin n → Fin n → ℤ) (left : s.fa k = false) :
 (settled (settle ma s k)).card = (settled s).card + 1 := by
 have grown : settled (settle ma s k) = insert k (settled s) := by
  ext j
  rw [mem_settled, settle_fa, mem_insert, mem_settled]
 rw [grown, card_insert_of_notMem]
 rw [mem_settled, left]
 exact Bool.false_ne_true

theorem exists_left (few : (settled s).card < n) : ∃ j, s.fa j = false := by
 by_contra none
 have all : settled s = univ := filter_true_of_mem fun j _ => by
  simpa using not_exists.mp none j
 simp_all

theorem rounds_outcome {ma : Fin (n + 1) → Fin (n + 1) → ℤ} (network : Network ma INF)
 (finite : INF < intMax) (v0 : Fin (n + 1)) :
 Outcome (fun fault => fault = .overflow ∧ intMax < 2 * INF)
  ((List.range n).foldlM (round ma) (initial ma v0, none))
  fun s => Progress ma INF v0 (ma 0) s.1 ∧ (settled s.1).card = (List.range n).length + 1 := by
 apply Outcome.foldlM fun (rounds : List ℕ) (s : State (n + 1) × Option (Fin (n + 1))) =>
  Progress ma INF v0 (ma 0) s.1 ∧ (settled s.1).card = rounds.length + 1
 · refine ⟨progress_initial network v0, card_eq_one.mpr ⟨v0, ?_⟩⟩
   ext j
   rw [mem_settled, Finset.mem_singleton]
   by_cases same : j = v0 <;> simp [initial, same]
 · rintro rounds i rest ⟨s, last⟩ parts ⟨progress, count⟩
   simp only at progress count
   have length := congrArg List.length parts
   simp only [length_range, length_append, length_cons] at length
   obtain ⟨j, left⟩ := exists_left (s := s) (by omega)
   have allows : ∀ k j, ¬ Fits (s.D k + ma k j) →
    Fault.overflow = .overflow ∧ intMax < 2 * INF := by
    intro k j outside
    have first := progress.nonneg k
    have second := network.nonneg k j
    have third := progress.atMost k
    have fourth := network.atMost k j
    unfold Fits at outside
    exact ⟨rfl, by omega⟩
   have below : ∀ j, s.D j < intMax := fun j => lt_of_le_of_lt (progress.atMost j) finite
   apply (round_outcome allows below left last i).mono
   rintro ⟨_, _⟩ ⟨k, left, least, rfl⟩
   refine ⟨progress.settle network left least, ?_⟩
   rw [card_settled_settle ma left, count, length_append, length_singleton]

theorem shortestPath_Dijkstra_outcome {ma : Fin (n + 1) → Fin (n + 1) → ℤ}
 (network : Network ma INF) (finite : INF < intMax) (v0 : Fin (n + 1)) :
 Outcome (fun fault => fault = .overflow ∧ intMax < 2 * INF) (shortestPath_Dijkstra ma v0)
  fun s => Progress ma INF v0 (ma 0) s ∧ ∀ j, s.fa j = true := by
 apply (rounds_outcome network finite v0).map
 rintro ⟨s, _⟩ ⟨progress, count⟩
 refine ⟨progress, fun j => ?_⟩
 rw [length_range] at count
 have all := eq_univ_of_card (settled s) (by rw [count, Fintype.card_fin])
 exact mem_settled.mp (all ▸ mem_univ j)

/-! ### The distances and the paths -/

theorem Route.exists_chain (route : Route row (without ma INF v0) s j) (other : j ≠ v0) :
 ∃ rounds chain root rest length, printLoop s.P rounds j = some chain ∧
  (j :: chain).reverse = root :: rest ∧ root ≠ v0 ∧ s.D root = row root ∧
  Walk (without ma INF v0) root j rest length ∧ s.D j = s.D root + length := by
 induction route with
 | @root j first direct =>
  refine ⟨1, [], j, [], 0, ?_, rfl, other, direct, .here j, (Int.add_zero _).symm⟩
  rw [printLoop, first]
 | @hop j k cost before _ along length _ ih =>
  obtain ⟨rounds, chain, root, rest, length', printed, order, apart, direct, walk, total⟩ :=
   ih along.2.1
  refine ⟨rounds + 1, k :: chain, root, rest ++ [j], length' + (cost + 0), ?_, ?_, apart,
   direct, walk.append (.step along (.here j)), by omega⟩
  · simp only [printLoop, before, printed, Option.map_some]
  · rw [reverse_cons, order, cons_append]

/-- All that is said of the result for that start: `D` has the distances, and `P` leads back along
shortest paths. -/
def Correct (ma : Fin n → Fin n → ℤ) (INF : ℤ) (v0 : Fin n) (s : State n) : Prop :=
 ∀ j, Distance (edge ma INF) INF v0 j (s.D j) ∧
  (j ≠ v0 → Reaches (edge ma INF) v0 j → ∃ rounds chain, printLoop s.P rounds j = some chain ∧
   Walk (edge ma INF) v0 j (j :: chain).reverse (s.D j))

def Agrees (ma : Fin n → Fin n → ℤ) (v0 : Fin n) (row D : Fin n → ℤ) : Prop :=
 ∀ j, j ≠ v0 → D j ≤ ma v0 j ∧ (row j = D j → ma v0 j = row j)

theorem without_edge (v x : Fin n) (cost : ℤ) (along : without ma INF v0 v x cost) :
 edge ma INF v x cost := along.1

section

variable (network : Network ma INF)
include network

variable (progress : Progress ma INF v0 row s)
include progress

theorem Progress.exists_walk (agrees : Agrees ma v0 row s.D) (other : j ≠ v0)
 (short : s.D j < INF) :
 ∃ rounds chain, printLoop s.P rounds j = some chain ∧
  Walk (edge ma INF) v0 j (j :: chain).reverse (s.D j) := by
 obtain ⟨rounds, chain, root, rest, length, printed, order, apart, direct, walk, total⟩ :=
  (progress.route j other short).exists_chain other
 have walk := walk.mono without_edge
 have positive := walk.nonneg network.edge_nonneg
 have first := (agrees root apart).2 direct.symm
 have along : edge ma INF v0 root (s.D root) := ⟨apart.symm, by omega, by omega⟩
 refine ⟨rounds, chain, printed, ?_⟩
 rw [order, total]
 exact .step along walk

theorem Progress.le_length (all : ∀ j, s.fa j = true) (agrees : Agrees ma v0 row s.D)
 {rest : List (Fin n)} {length : ℤ} (walk : Walk (edge ma INF) v0 j rest length) :
 s.D j ≤ length := by
 have zero := progress.zero
 have grows := walk.le_add s.D fun x y cost along => by
  rw [along.2.2]
  by_cases back : y = v0
  · have own := progress.nonneg x
    have entry := network.nonneg x y
    rw [← back] at zero
    omega
  · by_cases first : x = v0
    · subst first
      have direct := (agrees y back).1
      omega
    · exact progress.relaxed x first (all x) y back
 omega

theorem Progress.correct (all : ∀ j, s.fa j = true) (agrees : Agrees ma v0 row s.D) :
 Correct ma INF v0 s := by
 have distance : ∀ j, Distance (edge ma INF) INF v0 j (s.D j) := by
  intro j
  apply network.distance (fun _ _ _ => id) (progress.atMost j) fun _ _ =>
   progress.le_length network all agrees
  intro short
  by_cases same : j = v0
  · rw [same, progress.zero]
    exact ⟨[], .here v0⟩
  · obtain ⟨_, _, _, walk⟩ := progress.exists_walk network agrees same short
    exact ⟨_, walk⟩
 refine fun j => ⟨distance j, fun other reaches => ?_⟩
 exact progress.exists_walk network agrees other (network.lt_of_reaches (distance j) reaches)

theorem Progress.agrees (correct : Correct ma INF v0 s) : Agrees ma v0 row s.D := by
 intro j other
 obtain ⟨distance, path⟩ := correct j
 have atMost := progress.atMost j
 have entry := network.atMost v0 j
 have below : s.D j ≤ ma v0 j := by
  by_cases missing : ma v0 j = INF
  · omega
  · have walk : Walk (edge ma INF) v0 j [j] (ma v0 j + 0) :=
     .step ⟨Ne.symm other, missing, rfl⟩ (.here j)
    rcases distance with least | ⟨apart, _⟩
    · have short := least.2 _ _ walk
      omega
    · exact absurd ⟨_, _, walk⟩ apart
 refine ⟨below, fun same => ?_⟩
 rcases distance with least | ⟨_, missing⟩
 · obtain ⟨rounds, chain, printed, walk⟩ := path other (least.1.imp fun _ walk => ⟨_, walk⟩)
   -- The length was never changed, so the way back ends at once.
   have first : s.P j = none := by
    cases before : s.P j with
    | none => rfl
    | some k => exact absurd same (ne_of_gt (progress.strict j k before))
   cases rounds with
   | zero => cases printed
   | succ rounds =>
    simp only [printLoop, first, Option.some.injEq] at printed
    subst printed
    generalize total : s.D j = length at walk
    cases walk with
    | step along rest =>
     cases rest
     rw [along.2.2] at total
     omega
 · omega

/-- The result is right for the start if and only if the row of the start goes with it. -/
theorem Progress.right_iff (all : ∀ j, s.fa j = true) :
 Correct ma INF v0 s ↔ Agrees ma v0 row s.D :=
 ⟨progress.agrees network, progress.correct network all⟩

end

/-! ### Starts other than vertex 0 -/

/-- The row of the start goes with the distances from vertex 0 in the graph without the start. -/
def GoesWithFirst (ma : Fin (n + 1) → Fin (n + 1) → ℤ) (INF : ℤ) (v0 : Fin (n + 1)) : Prop :=
 ∀ j, j ≠ v0 → ∀ d, Distance (without ma INF v0) INF 0 j d →
  d ≤ ma v0 j ∧ (ma 0 j = d → ma v0 j = ma 0 j)

theorem Progress.distance_from_first {ma : Fin (n + 1) → Fin (n + 1) → ℤ} {v0 j : Fin (n + 1)}
 {s : State (n + 1)} (network : Network ma INF) (progress : Progress ma INF v0 (ma 0) s)
 (all : ∀ j, s.fa j = true) (further : v0 ≠ 0) (other : j ≠ v0) :
 Distance (without ma INF v0) INF 0 j (s.D j) := by
 have diagonal := network.diagonal 0
 have direct := progress.direct 0 further.symm
 apply network.distance without_edge (progress.atMost j)
 · intro rest length walk
   have grows := walk.le_add s.D fun x y cost along => by
    rw [along.1.2.2]
    exact progress.relaxed x along.2.1 (all x) y along.2.2
   omega
 · intro short
   obtain ⟨_, _, root, rest, length, _, _, apart, first, walk, total⟩ :=
    (progress.route j other short).exists_chain other
   have positive := (walk.mono without_edge).nonneg network.edge_nonneg
   rw [total]
   by_cases atFirst : root = 0
   · grind
   · exact ⟨_, .step ⟨⟨Ne.symm atFirst, by omega, first⟩, further.symm, apart⟩ walk⟩

theorem agrees_iff {ma : Fin (n + 1) → Fin (n + 1) → ℤ} {v0 : Fin (n + 1)} {s : State (n + 1)}
 (network : Network ma INF) (progress : Progress ma INF v0 (ma 0) s)
 (all : ∀ j, s.fa j = true) :
 Agrees ma v0 (ma 0) s.D ↔ v0 = 0 ∨ GoesWithFirst ma INF v0 := by
 by_cases first : v0 = 0
 · subst first
   exact iff_of_true (fun j other => ⟨progress.direct j other, fun _ => rfl⟩) (.inl rfl)
 · rw [or_iff_right first]
   constructor
   · intro agrees j other d known
     rw [known.eq (progress.distance_from_first network all first other)]
     exact agrees j other
   · intro goes j other
     exact goes j other _ (progress.distance_from_first network all first other)

/-- For a value for missing edges below `INT_MAX`, and larger than every path, no index is outside,
and where twice that value fits, no sum is too large.  The result is right for start 0, and for
another start if and only if its row goes with the distances from vertex 0 in the graph without
it. -/
theorem shortestPath_Dijkstra_correct_iff {ma : Fin (n + 1) → Fin (n + 1) → ℤ}
 (network : Network ma INF) (finite : INF < intMax) (v0 : Fin (n + 1)) :
 shortestPath_Dijkstra ma v0 ≠ .error .index ∧
 (2 * INF ≤ intMax → ∃ final, shortestPath_Dijkstra ma v0 = .ok final) ∧
 ∀ final, shortestPath_Dijkstra ma v0 = .ok final →
  (Correct ma INF v0 final ↔ v0 = 0 ∨ GoesWithFirst ma INF v0) := by
 have outcome := shortestPath_Dijkstra_outcome network finite v0
 refine ⟨?_, ?_, ?_⟩
 · intro stopped
   cases (outcome.1 _ stopped).1
 · intro small
   exact outcome.exists_ok fun _ large => Int.not_lt.mpr small large.2
 · intro final returned
   obtain ⟨progress, all⟩ := outcome.2 final returned
   exact (progress.right_iff network all).trans (agrees_iff network progress all)

theorem shortestPath_Dijkstra_detour :
 ∃ final, shortestPath_Dijkstra detour 0 = .ok final ∧ Correct detour 20 0 final ∧
  final.D 2 = 5 := by
 have correct := shortestPath_Dijkstra_correct_iff detour_network (by decide) 0
 obtain ⟨final, returned⟩ := correct.2.1 (by decide)
 have right := (correct.2.2 final returned).mpr (.inl rfl)
 exact ⟨final, returned, right, (right 2).1.eq (.inl detour_shortest)⟩

/-- Two vertices with an edge of length 1 between them, both ways. -/
def bothWays (v w : Fin 2) : ℤ := if v = w then 0 else 1

theorem bothWays_network : Network bothWays 7 :=
 @network_of_le 7 2 bothWays 1 (by decide) (by decide) (by decide) (by decide)

/-- From vertex 1 the length to vertex 0 is the one of vertex 0 to itself. -/
theorem shortestPath_Dijkstra_from_second :
 Network bothWays 7 ∧ ∃ final, shortestPath_Dijkstra bothWays 1 = .ok final ∧ final.D 0 = 0 ∧
  ¬ Distance (edge bothWays 7) 7 1 0 (final.D 0) := by
 have outcome := shortestPath_Dijkstra_outcome bothWays_network (by decide) 1
 obtain ⟨final, returned⟩ := outcome.exists_ok fun _ large => absurd large.2 (by decide)
 have progress := (outcome.2 final returned).1
 have own : final.D 0 = 0 := Int.le_antisymm (progress.direct 0 (by decide)) (progress.nonneg 0)
 refine ⟨bothWays_network, final, returned, own, fun distance => ?_⟩
 rw [own] at distance
 rcases distance with ⟨⟨rest, walk⟩, _⟩ | ⟨_, same⟩
 · generalize total : (0 : ℤ) = length at walk
   cases walk with
   | step along rest =>
    have positive := rest.nonneg bothWays_network.edge_nonneg
    rw [along.2.2, bothWays, if_neg along.1] at total
    omega
 · cases same

end MyNotes.Algorithms.Dijkstra
