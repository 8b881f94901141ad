/-
Which prefixes of a pattern end at a place of a text.

The shorter ones end with the longer ones, so they are known from the pattern alone, and the next
item of the text continues some of them.  A search needs no more of the text than the longest.
-/

import Mathlib.Data.List.Infix
import Mathlib.Order.Bounds.Defs

namespace MyNotes.Library.Border

open List Nat

variable {α : Type*}

/-- The first items of the pattern, so many, are the last that were read. -/
def Ends (pattern seen : List α) (count : ℕ) : Prop :=
 count ≤ pattern.length ∧ pattern.take count <:+ seen

structure Longest (pattern seen : List α) (limit count : ℕ) : Prop where
 ends : Ends pattern seen count
 within : count ≤ limit
 longest : ∀ other ≤ limit, Ends pattern seen other → other ≤ count

/-- The prefixes that the next item continues are shorter than the bound. -/
def ContinuedBelow (pattern seen : List α) (limit : ℕ) (next : α) (bound : ℕ) : Prop :=
 ∀ count ≤ limit, Ends pattern seen count → pattern[count]? = some next → count < bound

/-- Where so many items have been read and another than the next follows, the prefixes that could
go on are shorter than the bound. -/
def FallsBelow (pattern : List α) (count bound : ℕ) : Prop :=
 ∀ other < count, Ends pattern (pattern.take count) other →
  pattern[other]? ≠ pattern[count]? → other < bound

variable {pattern seen text : List α} {limit count other bound : ℕ} {next : α}

theorem ends_zero (pattern seen : List α) : Ends pattern seen 0 :=
 ⟨zero_le _, nil_suffix⟩

theorem Ends.shorter_iff (ends : Ends pattern seen count) (shorter : other ≤ count) :
 Ends pattern seen other ↔ Ends pattern (pattern.take count) other := by
 constructor
 · intro both
   refine ⟨both.1, suffix_of_suffix_length_le both.2 ends.2 ?_⟩
   rw [length_take, length_take]
   omega
 · exact fun inside => ⟨inside.1, inside.2.trans ends.2⟩

theorem Ends.count_le (ends : Ends pattern seen count) : count ≤ seen.length := by
 have shorter := ends.2.length_le
 rw [length_take, min_eq_left ends.1] at shorter
 exact shorter

theorem ends_concat : Ends pattern (seen ++ [next]) (count + 1) ↔
 Ends pattern seen count ∧ pattern[count]? = some next := by
 constructor
 · rintro ⟨within, ends⟩
   have inside : count < pattern.length := within
   rw [take_succ_eq_append_getElem inside, suffix_concat_iff] at ends
   rcases ends with empty | ⟨front, same, ends⟩
   · cases concat_ne_nil _ _ empty
   · obtain ⟨rfl, here⟩ := append_inj' same rfl
     refine ⟨⟨inside.le, ends⟩, ?_⟩
     simp_all
 · rintro ⟨ends, here⟩
   obtain ⟨inside, same⟩ := List.getElem?_eq_some_iff.mp here
   refine ⟨inside, ?_⟩
   rw [take_succ_eq_append_getElem inside, same]
   exact suffix_append_self_iff.mpr ends.2

theorem Longest.continuedBelow (longest : Longest pattern seen limit count) (next : α) :
 ContinuedBelow pattern seen limit next (count + 1) :=
 fun other within ends _ => lt_succ_of_le (longest.longest other within ends)

theorem Longest.fallsBelow {size : ℕ} (longest : Longest pattern (pattern.take size) limit count)
 (all : size ≤ limit + 1) : FallsBelow pattern size (count + 1) :=
 fun other shorter ends _ => lt_succ_of_le (longest.longest other (by omega) ends)

theorem ContinuedBelow.fall (continued : ContinuedBelow pattern seen limit next (count + 1))
 (ends : Ends pattern seen count) (differs : pattern[count]? ≠ some next)
 (falls : FallsBelow pattern count bound) : ContinuedBelow pattern seen limit next bound := by
 intro other within other_ends same
 have at_most := continued other within other_ends same
 have shorter : other < count := by
  refine lt_of_le_of_ne (le_of_lt_succ at_most) fun equal => differs ?_
  rw [← equal, same]
 refine falls other shorter ((ends.shorter_iff shorter.le).mp other_ends) fun equal => ?_
 exact differs (equal.symm.trans same)

theorem ContinuedBelow.extend (continued : ContinuedBelow pattern seen limit next (count + 1))
 (ends : Ends pattern seen count) (within : count ≤ limit)
 (same : pattern[count]? = some next) :
 Longest pattern (seen ++ [next]) (limit + 1) (count + 1) := by
 refine ⟨ends_concat.mpr ⟨ends, same⟩, succ_le_succ within, fun other below other_ends => ?_⟩
 cases other with
 | zero => exact zero_le _
 | succ other =>
  obtain ⟨before, here⟩ := ends_concat.mp other_ends
  exact continued other (le_of_succ_le_succ below) before here

theorem ContinuedBelow.restart (continued : ContinuedBelow pattern seen limit next 0) :
 Longest pattern (seen ++ [next]) (limit + 1) 0 := by
 refine ⟨ends_zero _ _, zero_le _, fun other below other_ends => ?_⟩
 cases other with
 | zero => exact le_rfl
 | succ other =>
  obtain ⟨before, here⟩ := ends_concat.mp other_ends
  exact absurd (continued other (le_of_succ_le_succ below) before here) (not_lt_zero _)

theorem Longest.below {shorter : ℕ} (longest : Longest pattern seen limit count)
 (inside : Longest pattern (pattern.take count) shorter other) (less : shorter ≤ count) :
 Longest pattern seen shorter other := by
 refine ⟨(longest.ends.shorter_iff (inside.within.trans less)).mpr inside.ends, inside.within,
  fun another within ends => ?_⟩
 exact inside.longest another within ((longest.ends.shorter_iff (within.trans less)).mp ends)

theorem Longest.unique (longest : Longest pattern seen limit count)
 (also : Longest pattern seen limit other) : count = other :=
 le_antisymm (also.longest _ longest.within longest.ends)
  (longest.longest _ also.within also.ends)

theorem Longest.isGreatest {size : ℕ} (longest : Longest pattern (pattern.take size) limit count)
 (all : limit ≤ pattern.length) :
 IsGreatest {other | other ≤ limit ∧ pattern.take other <:+ pattern.take size} count :=
 ⟨⟨longest.within, longest.ends.2⟩,
  fun _ both => longest.longest _ both.1 ⟨both.1.trans all, both.2⟩⟩

theorem longest_first (pattern seen : List α) : Longest pattern seen 0 0 :=
 ⟨ends_zero _ _, le_rfl, fun _ within _ => within⟩

theorem longest_nil (pattern : List α) (limit : ℕ) : Longest pattern [] limit 0 :=
 ⟨ends_zero _ _, zero_le _, fun _ _ ends => ends.count_le⟩

theorem ends_length_iff (pattern : List α) {place : ℕ} (inside : place ≤ text.length) :
 Ends pattern (text.take place) pattern.length ↔
  pattern.length ≤ place ∧ pattern <+: text.drop (place - pattern.length) := by
 rw [Ends, take_length, suffix_iff_eq_drop, prefix_iff_eq_take, length_take,
  min_eq_left inside, drop_take]
 constructor
 · rintro ⟨-, same⟩
   have sizes := congrArg length same
   rw [length_take, length_drop] at sizes
   have short : pattern.length ≤ place := by omega
   grind
 · grind

end MyNotes.Library.Border
