/-
Allocators that count references.

`owners` says how many references to an item there are, `count` is what the allocator
believes, and `free` are the items that it can hand out.  A `fresh` item may have been
freed without having been counted before.
-/

import Mathlib.Data.List.Nodup
import Mathlib.Data.Int.Notation

namespace MyNotes.Library.ReferenceCount

open Function List

variable {Item : Type*} [DecidableEq Item]

structure Tallied (items : List Item) (fresh : Item → Prop) (owners : Item → ℕ)
 (count : Item → ℤ) (free : List Item) : Prop where
 owned : ∀ item, 0 < owners item → count item = owners item ∧ item ∈ items
 unowned : ∀ item, owners item = 0 → count item = 0 ∨ (count item = -1 ∧ fresh item)
 mem_free : ∀ item, item ∈ free ↔ item ∈ items ∧ owners item = 0
 nodup : free.Nodup

variable {items free : List Item} {fresh : Item → Prop} {owners : Item → ℕ} {count : Item → ℤ}

omit [DecidableEq Item] in
theorem Tallied.empty : Tallied ([] : List Item) fresh (fun _ => 0) (fun _ => 0) [] where
 owned _ positive := absurd positive (Nat.lt_irrefl 0)
 unowned _ _ := Or.inl rfl
 mem_free _ := ⟨fun member => absurd member not_mem_nil, fun both => both.1⟩
 nodup := nodup_nil

omit [DecidableEq Item] in
theorem Tallied.of_mem_iff (tallied : Tallied items fresh owners count free) {others : List Item}
 (same : ∀ item, item ∈ items ↔ item ∈ others) : Tallied others fresh owners count free where
 owned item positive :=
  ⟨(tallied.owned item positive).1, (same item).mp (tallied.owned item positive).2⟩
 unowned := tallied.unowned
 mem_free item := by rw [tallied.mem_free, same]
 nodup := tallied.nodup

variable {item : Item}

section

variable (tallied : Tallied items fresh owners count free)
include tallied

omit [DecidableEq Item] in
theorem Tallied.used (positive : 0 < owners item) :
 Tallied items (fun other => other ≠ item ∧ fresh other) owners count free where
 owned := tallied.owned
 unowned other none := by
  refine (tallied.unowned other none).imp_right fun both => ⟨both.1, ?_, both.2⟩
  grind
 mem_free := tallied.mem_free
 nodup := tallied.nodup

theorem Tallied.add (new : item ∉ items) (uncounted : count item = 0) (isFresh : fresh item) :
 Tallied (item :: items) fresh owners (update count item (count item - 1))
  (item :: free) := by
 have unowned : owners item = 0 := by
  by_contra positive
  exact new (tallied.owned item (Nat.pos_of_ne_zero positive)).2
 constructor
 · intro other positive
   have different : other ≠ item := by
    intro same
    rw [same, unowned] at positive
    exact Nat.lt_irrefl 0 positive
   rw [update_of_ne different]
   obtain ⟨same, member⟩ := tallied.owned other positive
   exact ⟨same, mem_cons_of_mem _ member⟩
 · intro other none
   by_cases same : other = item
   · simp_all
   · rw [update_of_ne same]
     exact tallied.unowned other none
 · intro other
   rw [mem_cons, mem_cons, tallied.mem_free]
   constructor
   · intro cases
     rcases cases with same | both
     · exact ⟨Or.inl same, same ▸ unowned⟩
     · exact ⟨Or.inr both.1, both.2⟩
   · intro both
     rcases both.1 with same | member
     · exact Or.inl same
     · exact Or.inr ⟨member, both.2⟩
 · rw [nodup_cons]
   exact ⟨fun member => new ((tallied.mem_free item).mp member).1, tallied.nodup⟩

theorem Tallied.set {n : ℕ} {c : ℤ} {next : List Item} (inItems : item ∈ items) (counted : c = n)
 (nodup : next.Nodup) (here : item ∈ next ↔ n = 0)
 (elsewhere : ∀ other ≠ item, other ∈ next ↔ other ∈ free) :
 Tallied items fresh (update owners item n) (update count item c) next := by
 refine ⟨fun other positive => ?_, fun other none => ?_, fun other => ?_, nodup⟩
 all_goals by_cases same : other = item
 · simp_all
 · rw [update_of_ne same] at positive ⊢
   rw [update_of_ne same]
   exact tallied.owned other positive
 · simp_all
 · rw [update_of_ne same] at none ⊢
   exact tallied.unowned other none
 · simp_all
 · rw [update_of_ne same, elsewhere other same]
   exact tallied.mem_free other

omit [DecidableEq Item] in
theorem Tallied.not_mem_free (positive : 0 < owners item) : item ∉ free := by
 intro member
 rw [((tallied.mem_free item).mp member).2] at positive
 exact Nat.lt_irrefl 0 positive

end

theorem Tallied.take {rest : List Item} (tallied : Tallied items fresh owners count (item :: rest))
 :
 Tallied items fresh (update owners item 1) (update count item 1) rest := by
 obtain ⟨inItems, -⟩ := (tallied.mem_free item).mp mem_cons_self
 obtain ⟨notInRest, nodup⟩ := nodup_cons.mp tallied.nodup
 refine tallied.set inItems rfl nodup (iff_of_false notInRest Nat.one_ne_zero) ?_
 simp_all

theorem Tallied.share (tallied : Tallied items fresh owners count free) (positive : 0 < owners item)
 :
 Tallied items fresh (update owners item (owners item + 1))
  (update count item (count item + 1)) free := by
 obtain ⟨counted, inItems⟩ := tallied.owned item positive
 refine tallied.set inItems (by omega) tallied.nodup ?_ fun _ _ => Iff.rfl
 exact iff_of_false (tallied.not_mem_free positive) (Nat.succ_ne_zero _)

theorem Tallied.release (tallied : Tallied items fresh owners count free)
 (positive : 0 < owners item) :
 Tallied items fresh (update owners item (owners item - 1))
  (update count item (count item - 1))
  (if count item - 1 ≤ 0 then item :: free else free) := by
 obtain ⟨counted, inItems⟩ := tallied.owned item positive
 have absent := tallied.not_mem_free positive
 split
 · rename_i last
   refine tallied.set inItems (by omega) (nodup_cons.mpr ⟨absent, tallied.nodup⟩)
    (iff_of_true mem_cons_self (by omega)) ?_
   simp_all
 · rename_i more
   exact tallied.set inItems (by omega) tallied.nodup (iff_of_false absent (by omega))
    fun _ _ => Iff.rfl

end MyNotes.Library.ReferenceCount
