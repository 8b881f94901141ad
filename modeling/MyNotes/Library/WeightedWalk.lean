/-
Walks along the arcs of a graph, with their lengths.

An arc has a cost, and there may be several arcs between two vertices.
-/

import Mathlib.Data.Fintype.Card

namespace MyNotes.Library.WeightedWalk

open List Int

variable {V : Type*} {arc arc' : V → V → ℤ → Prop} {v w x : V} {rest first second : List V}
variable {length a b : ℤ}

/-- A walk from one vertex to another through the vertices of the list, with its length. -/
inductive Walk (arc : V → V → ℤ → Prop) : V → V → List V → ℤ → Prop
 | here (v : V) : Walk arc v v [] 0
 | step {v x w : V} {cost length : ℤ} {rest : List V} :
  arc v x cost → Walk arc x w rest length → Walk arc v w (x :: rest) (cost + length)

def Reaches (arc : V → V → ℤ → Prop) (v w : V) : Prop :=
 ∃ rest length, Walk arc v w rest length

def Shortest (arc : V → V → ℤ → Prop) (v w : V) (length : ℤ) : Prop :=
 (∃ rest, Walk arc v w rest length) ∧
  ∀ rest length', Walk arc v w rest length' → length ≤ length'

def Longest (arc : V → V → ℤ → Prop) (v w : V) (length : ℤ) : Prop :=
 (∃ rest, Walk arc v w rest length) ∧
  ∀ rest length', Walk arc v w rest length' → length' ≤ length

/-- The least length of a walk, or the value for none at all. -/
def Distance (arc : V → V → ℤ → Prop) (unreachable : ℤ) (v w : V) (distance : ℤ) : Prop :=
 Shortest arc v w distance ∨ ¬ Reaches arc v w ∧ distance = unreachable

theorem Longest.eq (greatest : Longest arc v w a) (other : Longest arc v w b) : a = b := by
 obtain ⟨first, walk⟩ := greatest.1
 obtain ⟨second, walk'⟩ := other.1
 exact le_antisymm (other.2 first a walk) (greatest.2 second b walk')

theorem Shortest.eq (least : Shortest arc v w a) (other : Shortest arc v w b) : a = b := by
 obtain ⟨first, walk⟩ := least.1
 obtain ⟨second, walk'⟩ := other.1
 exact le_antisymm (least.2 second b walk') (other.2 first a walk)

theorem Distance.eq {unreachable : ℤ} (known : Distance arc unreachable v w a)
 (other : Distance arc unreachable v w b) : a = b := by
 rcases known with least | ⟨apart, rfl⟩ <;> rcases other with least' | ⟨apart', same⟩
 · exact least.eq least'
 · exact absurd (least.1.imp fun rest walk => ⟨a, walk⟩) apart'
 · exact absurd (least'.1.imp fun rest walk => ⟨b, walk⟩) apart
 · exact same.symm

theorem Walk.append (front : Walk arc v x first a) (back : Walk arc x w second b) :
 Walk arc v w (first ++ second) (a + b) := by
 induction front with
 | here v =>
  rw [Int.zero_add]
  exact back
 | step along _ ih =>
  rw [cons_append, Int.add_assoc]
  exact .step along (ih back)

theorem Walk.mono (sub : ∀ v x cost, arc v x cost → arc' v x cost)
 (walk : Walk arc v w rest length) : Walk arc' v w rest length := by
 induction walk with
 | here v => exact .here v
 | step along _ ih => exact .step (sub _ _ _ along) ih

theorem Walk.le_add (bound : V → ℤ) (arcs : ∀ v x cost, arc v x cost → bound x ≤ bound v + cost)
 (walk : Walk arc v w rest length) : bound w ≤ bound v + length := by
 induction walk with
 | here v => exact Int.le_of_eq (Int.add_zero _).symm
 | step along _ ih =>
  have grows := arcs _ _ _ along
  omega

theorem Walk.add_le (bound : V → ℤ) (arcs : ∀ v x cost, arc v x cost → bound v + cost ≤ bound x)
 (walk : Walk arc v w rest length) : bound v + length ≤ bound w := by
 induction walk with
 | here v => exact Int.le_of_eq (Int.add_zero _)
 | step along _ ih =>
  have grows := arcs _ _ _ along
  omega

theorem Walk.le_mul {most : ℤ} (arcs : ∀ v x cost, arc v x cost → cost ≤ most)
 (walk : Walk arc v w rest length) : length ≤ most * rest.length := by
 induction walk with
 | here v => simp
 | step along _ ih =>
  have atMost := arcs _ _ _ along
  rw [length_cons, Int.natCast_succ, Int.mul_add]
  omega

section

variable (costs : ∀ v x cost, arc v x cost → 0 ≤ cost)
include costs

variable (walk : Walk arc v w rest length)
include walk

theorem Walk.nonneg : 0 ≤ length := by
 have grows := walk.le_add (fun _ => 0) fun v x cost along => by
  have positive := costs v x cost along
  omega
 omega

theorem Walk.exists_suffix (on : x ∈ v :: rest) :
 ∃ rest' length', length' ≤ length ∧ x :: rest' <:+ v :: rest ∧ Walk arc x w rest' length' := by
 induction walk with
 | here v =>
  rw [mem_singleton.mp on]
  exact ⟨[], 0, le_refl 0, suffix_rfl, .here v⟩
 | step along walk ih =>
  rcases mem_cons.mp on with rfl | later
  · exact ⟨_, _, le_refl _, suffix_rfl, .step along walk⟩
  · obtain ⟨rest', length', shorter, suffix, found⟩ := ih later
    have positive := costs _ _ _ along
    exact ⟨rest', length', by omega, suffix.trans (suffix_cons _ _), found⟩

theorem Walk.exists_nodup :
 ∃ rest' length', length' ≤ length ∧ (v :: rest').Nodup ∧ Walk arc v w rest' length' := by
 induction walk with
 | here v => exact ⟨[], 0, le_refl 0, nodup_singleton v, .here v⟩
 | @step v x w cost length rest along _ ih =>
  obtain ⟨rest', length', shorter, simple, found⟩ := ih
  have positive := costs _ _ _ along
  by_cases again : v ∈ x :: rest'
  · obtain ⟨rest'', length'', shorter', suffix, found⟩ := found.exists_suffix costs again
    exact ⟨rest'', length'', by omega, suffix.sublist.nodup simple, found⟩
  · exact ⟨x :: rest', cost + length', by omega, nodup_cons.mpr ⟨again, simple⟩,
     .step along found⟩

end

/-! ### Graphs without cycles -/

def Next (arc : V → V → ℤ → Prop) (v x : V) : Prop := ∃ cost, arc v x cost

def Acyclic (arc : V → V → ℤ → Prop) : Prop :=
 ∀ v rest length, Walk arc v v rest length → rest = []

theorem exists_walk_of_transGen (chain : Relation.TransGen (Next arc) v w) :
 ∃ rest length, rest ≠ [] ∧ Walk arc v w rest length := by
 induction chain with
 | single next =>
  obtain ⟨cost, along⟩ := next
  exact ⟨_, _, cons_ne_nil _ _, .step along (.here _)⟩
 | tail _ next ih =>
  obtain ⟨cost, along⟩ := next
  obtain ⟨rest, length, some, walk⟩ := ih
  exact ⟨_, _, by simp [some], walk.append (.step along (.here _))⟩

theorem Acyclic.irrefl (acyclic : Acyclic arc) : Std.Irrefl (Relation.TransGen (Next arc)) where
 irrefl v chain := by
  obtain ⟨rest, length, some, walk⟩ := exists_walk_of_transGen chain
  exact some (acyclic v rest length walk)

theorem Acyclic.induction [Finite V] (acyclic : Acyclic arc) {holds : V → Prop}
 (step : ∀ v, (∀ x cost, arc x v cost → holds x) → holds v) (v : V) : holds v := by
 have irreflexive := acyclic.irrefl
 have order := Finite.wellFounded_of_trans_of_irrefl (Relation.TransGen (Next arc))
 induction v using order.induction with
 | h v ih => exact step v fun x cost along => ih x (.single ⟨cost, along⟩)

theorem Acyclic.induction_back [Finite V] (acyclic : Acyclic arc) {holds : V → Prop}
 (step : ∀ v, (∀ x cost, arc v x cost → holds x) → holds v) (v : V) : holds v := by
 have irreflexive := acyclic.irrefl
 have order := Finite.wellFounded_of_trans_of_irrefl
  (Function.swap (Relation.TransGen (Next arc)))
 induction v using order.induction with
 | h v ih => exact step v fun x cost along => ih x (.single ⟨cost, along⟩)

end MyNotes.Library.WeightedWalk
