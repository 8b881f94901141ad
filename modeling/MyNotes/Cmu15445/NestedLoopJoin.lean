/-
The nested loop join against the join: a predicate that is `NULL` does not match.

`IsNull` of a value is a parameter.  What `GetAs<bool>` makes of a `NULL` is up to the
engine, and `NestedLoopJoinExecutor` takes that for the result.
-/

import Mathlib.Data.List.Perm.Basic
import MyNotes.Cmu15445.JoinExecutors

namespace MyNotes.Cmu15445

open Library.PullIterator List Bool Join

/-! ### Concatenations -/

theorem length_flatMap_le {α β : Type*} {items : List α} {first second : α → List β}
 (shorter : ∀ item ∈ items, (second item).length ≤ (first item).length) :
 (items.flatMap second).length ≤ (items.flatMap first).length := by
 induction items with
 | nil => exact Nat.le_refl _
 | cons item rest ih =>
  grind

theorem flatMap_eq_flatMap_iff {α β : Type*} {items : List α} {first second : α → List β}
 (shorter : ∀ item ∈ items, (second item).length ≤ (first item).length) :
 items.flatMap first = items.flatMap second ↔ ∀ item ∈ items, first item = second item := by
 induction items with
 | nil => exact iff_of_true rfl fun _ impossible => by cases impossible
 | cons item rest ih =>
  have here := shorter item mem_cons_self
  have later : ∀ other ∈ rest, (second other).length ≤ (first other).length :=
   fun other member => shorter other (mem_cons_of_mem _ member)
  have rests := length_flatMap_le later
  rw [flatMap_cons, flatMap_cons, forall_mem_cons, ← ih later]
  constructor
  · intro same
    have lengths := congrArg length same
    rw [length_append, length_append] at lengths
    exact append_inj same (by omega)
  · intro both
    rw [both.1, both.2]

variable {Value Tuple Schema : Type} {engine : Engine Value Tuple Schema} {join : Join Schema}

theorem Join.rowsOf_of_ne_nil (left : Tuple) {found : List Tuple} (nonempty : found ≠ []) :
 join.rowsOf engine left found = found.map (join.joined engine left) := by
 cases found with
 | nil => exact absurd rfl nonempty
 | cons right others => rfl

theorem Join.length_rowsOf_le (left : Tuple) {part all : List Tuple} (sublist : part.Sublist all) :
 (join.rowsOf engine left part).length ≤ (join.rowsOf engine left all).length := by
 cases all with
 | nil =>
  simp_all
 | cons right others =>
  have whole : join.rowsOf engine left (right :: others) = _ :=
   rowsOf_of_ne_nil left (cons_ne_nil right others)
  rw [whole, length_map]
  cases part with
  | nil =>
   unfold rowsOf
   cases join.joinType with
   | left => exact Nat.succ_le_succ (Nat.zero_le _)
   | inner => exact Nat.zero_le _
  | cons first rest =>
   rw [rowsOf_of_ne_nil left (cons_ne_nil first rest), length_map]
   exact sublist.length_le

theorem Join.rowsOf_eq_iff (left : Tuple) {part all : List Tuple} (sublist : part.Sublist all) :
 join.rowsOf engine left all = join.rowsOf engine left part ↔
  all = part ∨ (join.joinType = .left ∧ part = [] ∧
   ∃ right, all = [right] ∧ join.joined engine left right = join.padded engine left) := by
 constructor
 · intro same
   cases part with
   | nil =>
    cases all with
    | nil => exact .inl rfl
    | cons right others =>
     rw [rowsOf_of_ne_nil left (cons_ne_nil right others)] at same
     unfold rowsOf at same
     cases kind : join.joinType with
     | inner =>
      rw [kind] at same
      cases same
     | left =>
      simp_all
   | cons first rest =>
    have nonempty : all ≠ [] := by
     intro empty
     rw [empty] at sublist
     cases sublist_nil.mp sublist
    have lengths := congrArg length same
    rw [rowsOf_of_ne_nil left nonempty,
     rowsOf_of_ne_nil left (cons_ne_nil first rest), length_map,
     length_map] at lengths
    grind
 · intro either
   rcases either with same | ⟨kind, none, right, one, row⟩
   · rw [same]
   · rw [none, one, rowsOf, rowsOf, kind, map_singleton, row]

namespace NestedLoopJoinExecutor

variable (engine) (join) (isNull : Value → Bool) (predicate : Expression Value)

/-- The predicate is `TRUE`. -/
def holds (left right : Tuple) : Bool :=
 !isNull (predicate.evaluateJoin engine left join.leftSchema right join.rightSchema) &&
  test engine join predicate left right

/-- The predicate is `NULL`, and reads as true. -/
def misread (left right : Tuple) : Bool :=
 isNull (predicate.evaluateJoin engine left join.leftSchema right join.rightSchema) &&
  test engine join predicate left right

def joinRows (lefts rights : List Tuple) : List Tuple :=
 join.rows engine (fun left => rights.filter (holds engine join isNull predicate left)) lefts

/-- No pair is misread, or a left tuple without a match has one such pair, and its row is the
row padded with `NULL`s. -/
def ReadRight (rights : List Tuple) (left : Tuple) : Prop :=
 rights.filter (misread engine join isNull predicate left) = [] ∨
  (join.joinType = .left ∧ rights.filter (holds engine join isNull predicate left) = [] ∧
   ∃ right, rights.filter (misread engine join isNull predicate left) = [right] ∧
    join.joined engine left right = join.padded engine left)

variable {engine join isNull predicate}

theorem filter_test_eq_iff (rights : List Tuple) (left : Tuple) :
 rights.filter (test engine join predicate left) =
  rights.filter (holds engine join isNull predicate left) ↔
  rights.filter (misread engine join isNull predicate left) = [] := by
 have inside : rights.filter (holds engine join isNull predicate left) =
  (rights.filter (test engine join predicate left)).filter fun right =>
   !isNull (predicate.evaluateJoin engine left join.leftSchema right join.rightSchema) := by
  rw [filter_filter]
  rfl
 rw [inside, eq_comm, filter_eq_self, filter_eq_nil_iff]
 constructor
 · intro notNull right member both
   obtain ⟨null, passes⟩ := and_eq_true_iff.mp both
   have valid := notNull right (mem_filter.mpr ⟨member, passes⟩)
   rw [null] at valid
   cases valid
 · intro none right member
   obtain ⟨inRights, passes⟩ := mem_filter.mp member
   rw [not_eq_true', eq_false_iff]
   exact fun null => none right inRights (and_eq_true_iff.mpr ⟨null, passes⟩)

theorem filter_test_of_no_match {rights : List Tuple} {left : Tuple}
 (none : rights.filter (holds engine join isNull predicate left) = []) :
 rights.filter (test engine join predicate left) =
  rights.filter (misread engine join isNull predicate left) := by
 apply filter_congr
 intro right member
 have absent := filter_eq_nil_iff.mp none right member
 unfold holds at absent
 unfold misread
 generalize isNull _ = null at absent ⊢
 cases null with
 | true => rw [Bool.true_and]
 | false =>
  simp_all

theorem rowsOf_eq_iff (rights : List Tuple) (left : Tuple) :
 join.rowsOf engine left (rights.filter (test engine join predicate left)) =
  join.rowsOf engine left (rights.filter (holds engine join isNull predicate left)) ↔
  ReadRight engine join isNull predicate rights left := by
 have sublist : (rights.filter (holds engine join isNull predicate left)).Sublist
  (rights.filter (test engine join predicate left)) :=
  monotone_filter_right rights fun right both => (and_eq_true_iff.mp both).2
 rw [Join.rowsOf_eq_iff left sublist, filter_test_eq_iff]
 refine or_congr_right (and_congr_right fun _ => and_congr_right fun none => ?_)
 rw [filter_test_of_no_match none]

/-- The executor emits the rows of the join, and then ends, exactly when for every left tuple
the `NULL`s are read right. -/
theorem emits_joinRows_iff (lefts rights : List Tuple) :
 Emits (next engine join predicate rights) (init engine lefts)
  (joinRows engine join isNull predicate lefts rights) ↔
  ∀ left ∈ lefts, ReadRight engine join isNull predicate rights left := by
 have emitted : Emits (next engine join predicate rights) (init engine lefts)
  (rows engine join predicate lefts rights) := emits_rows lefts rights
 have pointwise : rows engine join predicate lefts rights =
  joinRows engine join isNull predicate lefts rights ↔ ∀ left ∈ lefts,
   join.rowsOf engine left (rights.filter (test engine join predicate left)) =
    join.rowsOf engine left (rights.filter (holds engine join isNull predicate left)) :=
  flatMap_eq_flatMap_iff fun left _ => Join.length_rowsOf_le left
   (monotone_filter_right rights fun right both => (Bool.and_eq_true_iff.mp both).2)
 have each := pointwise.trans
  (forall_congr' fun left => forall_congr' fun _ => rowsOf_eq_iff rights left)
 rw [← each]
 constructor
 · intro emits
   exact emitted.unique emits
 · intro same
   rw [← same]
   exact emitted

/-- A `NULL` column equals nothing. -/
def isNullDatum : Datum → Bool
 | .integer val => val.isNone
 | .boolean result => result = .cmpNull

def nullJoin : Join (List ℕ) := ⟨.inner, [0], [0], [0, 1]⟩

def equalColumns : Expression Datum :=
 .comparison .equal (.columnValue 0 0) (.columnValue 1 0)

theorem not_emits_joinRows_null :
 ¬ ∀ (join : Join (List ℕ)) (predicate : Expression Datum) (lefts rights : List (List Datum)),
  Emits (next wordEngine join predicate rights) (init wordEngine lefts)
   (joinRows wordEngine join isNullDatum predicate lefts rights) := by
 intro claim
 have emitted : Emits (next wordEngine nullJoin equalColumns [[.integer (some 1)]])
  (init wordEngine [[.integer none]])
  (rows wordEngine nullJoin equalColumns [[.integer none]] [[.integer (some 1)]]) :=
  emits_rows _ _
 have same := emitted.unique (claim nullJoin equalColumns [[.integer none]] [[.integer (some 1)]])
 exact absurd same (by decide)

end NestedLoopJoinExecutor

end MyNotes.Cmu15445
