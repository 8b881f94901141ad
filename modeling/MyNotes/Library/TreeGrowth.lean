/-
Trees grown from one vertex by the least edge that leaves the vertices reached.

The edges that are still missing are compared with any edges that join the rest to the vertices
reached, where these count as one.
-/

import Mathlib.Algebra.BigOperators.Finprod
import Mathlib.Combinatorics.SimpleGraph.Acyclic

namespace MyNotes.Library.TreeGrowth

open Relation Finset ReflTransGen SimpleGraph

variable {V R : Type*} {w : Sym2 V → R} {total : R} {E : Finset (Sym2 V)} {S : Finset V}
variable {k x y s : V}

section Weight

variable [AddCommMonoid R]

noncomputable def weight (w : Sym2 V → R) (graph : SimpleGraph V) : R :=
 ∑ᶠ e ∈ graph.edgeSet, w e

/-- What the spanning trees of the complete graph come to. -/
def treeWeights (w : Sym2 V → R) : Set R := {total | ∃ tree, tree.IsTree ∧ weight w tree = total}

theorem weight_eq {graph : SimpleGraph V} (edges : graph.edgeSet = E) :
 weight w graph = ∑ e ∈ E, w e := by
 rw [weight, edges]
 exact finsum_mem_coe_finset w E

end Weight

/-- Two vertices at the ends of one of the edges, or both in the set. -/
def Step (E : Finset (Sym2 V)) (S : Finset V) (x y : V) : Prop := s(x, y) ∈ E ∨ x ∈ S ∧ y ∈ S

/-- The edges join all vertices, where those in the set count as one. -/
def Joins (E : Finset (Sym2 V)) (S : Finset V) : Prop := ∀ x y, ReflTransGen (Step E S) x y

theorem Step.symm (step : Step E S x y) : Step E S y x :=
 step.imp (fun among => Sym2.eq_swap ▸ among) And.symm

theorem symm_reach (reach : ReflTransGen (Step E S) x y) : ReflTransGen (Step E S) y x := by
 induction reach with
 | refl => exact .refl
 | tail _ step ih => exact .head step.symm ih

theorem exists_crossing (outside : k ∉ S) (inside : s ∈ S) (reach : ReflTransGen (Step E S) k s) :
 ∃ x u, s(x, u) ∈ E ∧ x ∉ S ∧ u ∈ S ∧
  ReflTransGen (fun a b => s(a, b) ∈ E ∧ a ∉ S ∧ b ∉ S) k x := by
 induction reach using head_induction_on with
 | refl => exact absurd inside outside
 | @head k b step _ ih =>
  have along : s(k, b) ∈ E := step.resolve_right fun both => outside both.1
  by_cases into : b ∈ S
  · exact ⟨k, b, along, outside, into, .refl⟩
  · obtain ⟨x, u, crossing, out, entered, way⟩ := ih into
    exact ⟨x, u, crossing, out, entered, .head ⟨along, outside, into⟩ way⟩

variable [DecidableEq V]

theorem Joins.erase (joins : Joins E S) (inside : s ∈ S) (outside : k ∉ S) :
 ∃ x u, s(x, u) ∈ E ∧ x ∉ S ∧ u ∈ S ∧ Joins (E.erase s(x, u)) (insert k S) := by
 obtain ⟨x, u, crossing, out, entered, way⟩ := exists_crossing outside inside (joins k s)
 refine ⟨x, u, crossing, out, entered, fun a b => ?_⟩
 have fromK : ReflTransGen (Step (E.erase s(x, u)) (insert k S)) k x := by
  refine mono ?_ k x way
  rintro a b ⟨along, aOut, bOut⟩
  refine .inl (mem_erase.mpr ⟨fun same => ?_, along⟩)
  rcases Sym2.eq_iff.mp same with ⟨_, rfl⟩ | ⟨rfl, _⟩
  · exact bOut entered
  · exact aOut entered
 have around : ReflTransGen (Step (E.erase s(x, u)) (insert k S)) x u :=
  (symm_reach fromK).tail
   (.inr ⟨mem_insert_self k S, mem_insert_of_mem entered⟩)
 refine lift' id ?_ a b (joins a b)
 rintro a b (along | ⟨aIn, bIn⟩)
 · by_cases same : s(a, b) = s(x, u)
   · rcases Sym2.eq_iff.mp same with ⟨rfl, rfl⟩ | ⟨rfl, rfl⟩
     · exact around
     · exact symm_reach around
   · exact .single (.inl (mem_erase.mpr ⟨same, along⟩))
 · exact .single (.inr ⟨mem_insert_of_mem aIn, mem_insert_of_mem bIn⟩)

theorem Joins.of_insert {u : V} (joins : Joins E (insert k S)) (inside : u ∈ S) :
 Joins (insert s(u, k) E) S := by
 intro a b
 have own : ∀ c ∈ insert k S, ReflTransGen (Step (insert s(u, k) E) S) u c := by
  intro c among
  rcases mem_insert.mp among with rfl | old
  · exact .single (.inl (mem_insert_self _ E))
  · exact .single (.inr ⟨inside, old⟩)
 refine lift' id ?_ a b (joins a b)
 rintro a b (along | ⟨aIn, bIn⟩)
 · exact .single (.inl (mem_insert_of_mem along))
 · exact (symm_reach (own a aIn)).trans (own b bIn)

/-! ### Growing -/

variable [Fintype V] [AddCommMonoid R] [LinearOrder R]

/-- From the set on, the least edge that leaves it is added again and again, and the edges come to
so much. -/
inductive Growth (w : Sym2 V → R) : Finset V → R → Prop
 | all : Growth w Finset.univ 0
 | grow {S : Finset V} {u k : V} {total : R} : u ∈ S → k ∉ S →
  (∀ u' ∈ S, ∀ x, x ∉ S → w s(u, k) ≤ w s(u', x)) → Growth w (insert k S) total →
  Growth w S (w s(u, k) + total)

theorem Growth.exists_edges (growth : Growth w S total) :
 ∃ E : Finset (Sym2 V), Joins E S ∧ E.card + S.card = Fintype.card V ∧
  (∀ e ∈ E, ¬ e.IsDiag ∧ ∃ x ∈ e, x ∉ S) ∧ ∑ e ∈ E, w e = total := by
 induction growth with
 | all =>
  refine ⟨∅, fun x y => ?_, by simp, ?_, rfl⟩
  · exact .single (.inr ⟨mem_univ x, mem_univ y⟩)
  · simp
 | @grow S u k total inside outside _ _ ih =>
  obtain ⟨E, joins, count, leave, sum⟩ := ih
  have new : s(u, k) ∉ E := by
   intro old
   obtain ⟨x, end', out⟩ := (leave _ old).2
   rcases Sym2.mem_iff.mp end' with rfl | rfl
   · exact out (mem_insert_of_mem inside)
   · exact out (mem_insert_self x S)
  refine ⟨insert s(u, k) E, joins.of_insert inside, ?_, ?_, ?_⟩
  · grind
  · intro e among
    rcases mem_insert.mp among with rfl | old
    · exact ⟨fun same => outside (Sym2.mk_isDiag_iff.mp same ▸ inside),
       k, Sym2.mem_mk_right u k, outside⟩
    · grind
  · rw [sum_insert new, sum]

variable [IsOrderedAddMonoid R]

variable (nonneg : ∀ e, 0 ≤ w e)
include nonneg

theorem Growth.le_sum (growth : Growth w S total) (inside : s ∈ S) (joins : Joins E S) :
 total ≤ ∑ e ∈ E, w e := by
 induction growth generalizing E with
 | all => exact sum_nonneg fun e _ => nonneg e
 | @grow S u k total _ outside least _ ih =>
  obtain ⟨x, u', crossing, out, entered, joins⟩ := joins.erase inside outside
  rw [← add_sum_erase E w crossing]
  apply add_le_add
  · have swap : s(x, u') = s(u', x) := Sym2.eq_swap
    rw [swap]
    exact least u' entered x out
  · simp_all

theorem exists_growth (nonempty : S.Nonempty) : ∃ total, 0 ≤ total ∧ Growth w S total := by
 generalize left : (univ \ S).card = count
 induction count generalizing S with
 | zero =>
  have all : S = univ := by
   rw [card_eq_zero, sdiff_eq_empty_iff_subset] at left
   exact univ_subset_iff.mp left
  rw [all]
  exact ⟨0, le_rfl, .all⟩
 | succ count ih =>
  have others : (univ \ S).Nonempty := card_pos.mp (by omega)
  obtain ⟨⟨u, k⟩, crossing, least⟩ :=
   exists_min_image _ (fun pair => w s(pair.1, pair.2)) (nonempty.product others)
  obtain ⟨inside, outside⟩ := mem_product.mp crossing
  have outside' := (mem_sdiff.mp outside).2
  have fewer : (univ \ insert k S).card = count := by
   rw [sdiff_insert, card_erase_of_mem outside]
   omega
  obtain ⟨total, positive, growth⟩ := ih (insert_nonempty k S) fewer
  refine ⟨w s(u, k) + total, add_nonneg (nonneg _) positive, .grow inside outside' ?_ growth⟩
  simp_all

theorem Growth.isLeast (growth : Growth w {s} total) : IsLeast (treeWeights w) total := by
 constructor
 · obtain ⟨E, joins, count, leave, sum⟩ := growth.exists_edges
   have edges : (fromEdgeSet (E : Set (Sym2 V))).edgeSet = E := by
    rw [edgeSet_fromEdgeSet]
    exact sdiff_eq_left.mpr (Set.disjoint_left.mpr fun e among => (leave e among).1)
   have nonempty : Nonempty V := ⟨s⟩
   refine ⟨fromEdgeSet (E : Set (Sym2 V)),
    isTree_iff_connected_and_card.mpr ⟨.mk fun x y => ?_, ?_⟩,
    (weight_eq edges).trans sum⟩
   · rw [reachable_iff_reflTransGen]
     refine lift' id ?_ x y (joins x y)
     rintro a b (along | ⟨aIn, bIn⟩)
     · exact .single ⟨along, fun same => (leave _ along).1 (Sym2.mk_isDiag_iff.mpr same)⟩
     · grind
   · rw [edges, Nat.card_coe_set_eq, Set.ncard_coe_finset, Nat.card_eq_fintype_card]
     rwa [card_singleton] at count
 · rintro _ ⟨tree, isTree, rfl⟩
   have edges : tree.edgeSet = (tree.edgeSet.toFinite.toFinset : Set (Sym2 V)) :=
    (Set.Finite.coe_toFinset _).symm
   rw [weight_eq edges]
   apply growth.le_sum nonneg (mem_singleton_self s)
   intro x y
   have reach := (reachable_iff_reflTransGen x y).mp (isTree.connected x y)
   refine mono ?_ x y reach
   intro a b adjacent
   exact .inl ((Set.Finite.mem_toFinset _).mpr adjacent)

end MyNotes.Library.TreeGrowth
