/-
`AggregationExecutor` and its hash table, project 3.

The child is the list of its tuples.  `Add` has no result when the sum does not fit or the
operands are not integers; the order in which the hash table is iterated is a parameter.
The values of one column have one type.
-/

import Mathlib.Data.List.Infix
import Mathlib.Data.Multiset.Fold
import Mathlib.Data.Sum.Order
import MyNotes.Library.Cursor
import MyNotes.Library.GroupedFold
import MyNotes.Cmu15445.Expression

namespace MyNotes.Cmu15445

open Library.Cursor Library.GroupedFold List

inductive AggregationType where
 | countStarAggregate
 | countAggregate
 | sumAggregate
 | minAggregate
 | maxAggregate
 deriving DecidableEq

/-- A value that is not `NULL`. -/
inductive Scalar (Other : Type) where
 | integer (val : ℤ)
 | other (val : Other)
 deriving DecidableEq

/-- A value; `none` is `NULL`. -/
abbrev ColumnValue (Other : Type) := Option (Scalar Other)

namespace Scalar

variable {Other : Type}

def toSum : Scalar Other → ℤ ⊕ₗ Other
 | integer val => toLex (.inl val)
 | other val => toLex (.inr val)

theorem toSum_injective : Function.Injective (toSum : Scalar Other → ℤ ⊕ₗ Other) := by
 intro first second same
 cases first with
 | integer val =>
  cases second with
  | integer otherVal => rw [Sum.inl.inj (toLex.injective same)]
  | other otherVal => cases toLex.injective same
 | other val =>
  cases second with
  | integer otherVal => cases toLex.injective same
  | other otherVal => rw [Sum.inr.inj (toLex.injective same)]

/-- The order of each type; integers and other values are not compared. -/
instance [LinearOrder Other] : LinearOrder (Scalar Other) :=
 LinearOrder.lift' toSum toSum_injective

def toInt : Scalar Other → ℤ
 | integer val => val
 | other _ => 0

def plus (first second : Scalar Other) : Scalar Other := integer (first.toInt + second.toInt)

instance : Std.Commutative (plus : Scalar Other → Scalar Other → Scalar Other) where
 comm _ _ := congrArg integer (Int.add_comm _ _)

instance : Std.Associative (plus : Scalar Other → Scalar Other → Scalar Other) where
 assoc _ _ _ := congrArg integer (Int.add_assoc _ _ _)

end Scalar

variable {Other : Type} [LinearOrder Other]

namespace ColumnValue

def compareEquals : ColumnValue Other → ColumnValue Other → CmpBool
 | some first, some second => Datum.ofBool (decide (first = second))
 | _, _ => .cmpNull

def compareLessThan : ColumnValue Other → ColumnValue Other → CmpBool
 | some first, some second => Datum.ofBool (decide (first < second))
 | _, _ => .cmpNull

def compareGreaterThan : ColumnValue Other → ColumnValue Other → CmpBool
 | some first, some second => Datum.ofBool (decide (second < first))
 | _, _ => .cmpNull

omit [LinearOrder Other] in
/-- `Add` throws when the sum is out of range. -/
def add (fits : ℤ → Bool) : ColumnValue Other → ColumnValue Other → Option (ColumnValue Other)
 | some (.integer first), some (.integer second) =>
  if fits (first + second) then some (some (.integer (first + second))) else none
 | some _, some _ => none
 | _, _ => some none

end ColumnValue

structure AggregationPlan (Tuple Other : Type) where
 groupBys : List (Tuple → ColumnValue Other)
 aggregates : List (AggregationType × (Tuple → ColumnValue Other))

abbrev AggregateEntry (Other : Type) := List (ColumnValue Other) × List (ColumnValue Other)

/-- The order in which an `unordered_map` with these entries is iterated. -/
structure IterationOrder (Entry : Type) where
 order : List Entry → List Entry
 perm : ∀ entries, (order entries).Perm entries

/-! ### The hash table -/

/-- `operator==` of `AggregateKey`; both keys have the same length. -/
def aggregateKeyEquals : List (ColumnValue Other) → List (ColumnValue Other) → Bool
 | value :: rest, other :: otherRest =>
  if value.compareEquals other ≠ .cmpTrue then false else aggregateKeyEquals rest otherRest
 | _, _ => true

/-- The body of the loop of `CombineAggregateValues`. -/
def combineValue (fits : ℤ → Bool) (aggType : AggregationType)
 (resultValue inputValue : ColumnValue Other) : Option (ColumnValue Other) :=
 match aggType with
 | .countStarAggregate => resultValue.add fits (some (.integer 1))
 | .countAggregate =>
  if !inputValue.isNone then
   ColumnValue.add fits (if resultValue.isNone then some (.integer 0) else resultValue)
    (some (.integer 1))
  else some resultValue
 | .sumAggregate =>
  if !inputValue.isNone then
   if resultValue.isNone then some inputValue else resultValue.add fits inputValue
  else some resultValue
 | .minAggregate =>
  if !inputValue.isNone then
   if resultValue.isNone then some inputValue
   else some (if resultValue.compareLessThan inputValue = .cmpTrue then resultValue
    else inputValue)
  else some resultValue
 | .maxAggregate =>
  if !inputValue.isNone then
   if resultValue.isNone then some inputValue
   else some (if resultValue.compareGreaterThan inputValue = .cmpTrue then resultValue
    else inputValue)
  else some resultValue

def combineAggregateValues (fits : ℤ → Bool) : List AggregationType → List (ColumnValue Other) →
 List (ColumnValue Other) → Option (List (ColumnValue Other))
 | aggType :: aggTypes, resultValue :: result, inputValue :: input => do
  let combined ← combineValue fits aggType resultValue inputValue
  let rest ← combineAggregateValues fits aggTypes result input
  some (combined :: rest)
 | _, result, _ => some result

omit [LinearOrder Other] in
def generateInitialAggregateValue (aggTypes : List AggregationType) : List (ColumnValue Other) :=
 aggTypes.map fun aggType =>
  match aggType with
  | .countStarAggregate => some (.integer 0)
  | _ => none

namespace AggregationPlan

variable {Tuple : Type} (plan : AggregationPlan Tuple Other)

def aggregateTypes : List AggregationType := plan.aggregates.map Prod.fst

def makeAggregateKey (tuple : Tuple) : List (ColumnValue Other) :=
 plan.groupBys.map fun expr => expr tuple

def makeAggregateValue (tuple : Tuple) : List (ColumnValue Other) :=
 plan.aggregates.map fun aggregate => aggregate.2 tuple

/-- `InsertCombine` of the key and the value of a tuple. -/
def insertCombine (fits : ℤ → Bool) (entries : List (AggregateEntry Other)) (tuple : Tuple) :
 Option (List (AggregateEntry Other)) :=
 put aggregateKeyEquals
  (fun result tuple =>
   combineAggregateValues fits plan.aggregateTypes result (plan.makeAggregateValue tuple))
  (generateInitialAggregateValue plan.aggregateTypes) (plan.makeAggregateKey tuple) tuple entries

end AggregationPlan

/-! ### The executor -/

/-- The entries of the hash table in the order of its iterators, and those from the iterator
on. -/
structure AggregationExecutor (Other : Type) where
 aht : List (AggregateEntry Other)
 ahtIterator : List (AggregateEntry Other)
 hasAgg : Bool

namespace AggregationExecutor

variable {Tuple : Type} (plan : AggregationPlan Tuple Other)

omit [LinearOrder Other] in
def start : AggregationExecutor Other := ⟨[], [], false⟩

/-- `Init`; the flag is not set here. -/
def init (fits : ℤ → Bool) (order : IterationOrder (AggregateEntry Other)) (child : List Tuple)
 (self : AggregationExecutor Other) : Option (AggregationExecutor Other) := do
 let entries ← child.foldlM (plan.insertCombine fits) []
 some { self with aht := order.order entries, ahtIterator := order.order entries }

omit [LinearOrder Other] in
def next (self : AggregationExecutor Other) :
 Option (List (ColumnValue Other)) × AggregationExecutor Other :=
 if self.aht ≠ [] then
  match self.ahtIterator with
  | [] => (none, self)
  | entry :: rest => (some (entry.1 ++ entry.2), { self with ahtIterator := rest })
 else if self.hasAgg then (none, self)
 else if plan.groupBys.isEmpty then
  (some (generateInitialAggregateValue plan.aggregateTypes), { self with hasAgg := true })
 else (none, { self with hasAgg := true })

end AggregationExecutor

/-! ### What it computes -/

/-- An aggregate of the values of a group; a `NULL` changes nothing but `COUNT(*)`. -/
def aggregateOf (aggType : AggregationType) (values : Multiset (ColumnValue Other)) :
 ColumnValue Other :=
 match aggType with
 | .countStarAggregate => some (.integer (Multiset.card values))
 | .countAggregate =>
  (values.map (Option.map fun _ => Scalar.integer 1)).fold (Option.merge Scalar.plus) none
 | .sumAggregate => values.fold (Option.merge Scalar.plus) none
 | .minAggregate => values.fold (Option.merge min) none
 | .maxAggregate => values.fold (Option.merge max) none

namespace AggregationPlan

variable {Tuple : Type} (plan : AggregationPlan Tuple Other)

/-- The tuples of each key make one row: the key and the aggregates of the tuples. -/
def groups (tuples : Multiset Tuple) : Multiset (List (ColumnValue Other)) :=
 (tuples.map plan.makeAggregateKey).dedup.map fun key =>
  key ++ plan.aggregates.map fun aggregate => aggregateOf aggregate.1
   ((tuples.filter fun tuple => plan.makeAggregateKey tuple = key).map aggregate.2)

/-- `GROUP BY`; without it there is a row of initial values for no tuples. -/
def result (tuples : Multiset Tuple) : Multiset (List (ColumnValue Other)) :=
 if Multiset.card tuples = 0 then
  if plan.groupBys.isEmpty then {generateInitialAggregateValue plan.aggregateTypes} else 0
 else plan.groups tuples

/-- Whether a value is `NULL` or an integer. -/
def isInteger : ColumnValue Other → Bool
 | some (.other _) => false
 | _ => true

/-- Whether a value is no integer that is out of range. -/
def inRange (fits : ℤ → Bool) : ColumnValue Other → Bool
 | some (.integer val) => fits val
 | _ => true

/-- Sums are of integers, and no sum or count overflows at any time. -/
structure NoOverflow (fits : ℤ → Bool) (tuples : List Tuple) : Prop where
 integers : ∀ aggregate ∈ plan.aggregates, aggregate.1 = .sumAggregate →
  ∀ tuple ∈ tuples, isInteger (aggregate.2 tuple) = true
 fits : ∀ aggregate ∈ plan.aggregates,
  aggregate.1 ≠ .minAggregate → aggregate.1 ≠ .maxAggregate →
   ∀ front ∈ tuples.inits, ∀ tuple ∈ front, inRange fits (aggregateOf aggregate.1
    (((group plan.makeAggregateKey front (plan.makeAggregateKey tuple)).map aggregate.2 :
     List (ColumnValue Other)) : Multiset (ColumnValue Other))) = true

/-! ### One value more -/

variable {values : Multiset (ColumnValue Other)}

omit [LinearOrder Other] in
theorem isInteger_fold_plus (integers : ∀ value ∈ values, isInteger value = true) :
 isInteger (values.fold (Option.merge Scalar.plus) none) = true := by
 induction values using Multiset.induction_on with
 | empty => rfl
 | cons value values ih =>
  rw [Multiset.fold_cons_left]
  have own := integers value (Multiset.mem_cons_self _ _)
  have rest := ih fun other member => integers other (Multiset.mem_cons_of_mem member)
  generalize values.fold (Option.merge Scalar.plus) none = sum at rest ⊢
  cases value with
  | none => rw [Option.merge_none_left, rest]
  | some first =>
   cases sum with
   | none => rw [Option.merge_none_right, own]
   | some second => rfl

variable {fits : ℤ → Bool}

omit [LinearOrder Other] in
theorem add_eq_plus {sum : ColumnValue Other} {val : ℤ} (integer : isInteger sum = true)
 (range : inRange fits (Option.merge Scalar.plus (some (.integer val)) sum) = true) :
 (if sum.isNone then some (some (.integer val)) else sum.add fits (some (.integer val))) =
  some (Option.merge Scalar.plus (some (.integer val)) sum) := by
 cases sum with
 | none => rfl
 | some scalar =>
  cases scalar with
  | other _ => cases integer
  | integer total =>
   have same : fits (total + val) = true := by
    rw [Int.add_comm]
    exact range
   rw [Option.isNone_some, if_neg Bool.false_ne_true, ColumnValue.add, if_pos same,
    Option.merge_some_some]
   exact congrArg (fun sum => some (some (Scalar.integer sum))) (Int.add_comm _ _)

theorem isInteger_aggregateOf_count (values : Multiset (ColumnValue Other)) :
 isInteger (aggregateOf .countAggregate values) = true := by
 apply isInteger_fold_plus
 intro one member
 obtain ⟨value, -, same⟩ := Multiset.mem_map.mp member
 rw [← same]
 cases value <;> rfl

variable {value : ColumnValue Other}

theorem combine_countStar
 (range : inRange fits (aggregateOf .countStarAggregate (value ::ₘ values)) = true) :
 combineValue fits .countStarAggregate (aggregateOf .countStarAggregate values) value =
  some (aggregateOf .countStarAggregate (value ::ₘ values)) := by
 have more : aggregateOf .countStarAggregate (value ::ₘ values) =
  some (.integer (Multiset.card values + 1)) := by
  rw [aggregateOf, Multiset.card_cons, Int.natCast_succ]
 rw [more] at range ⊢
 exact if_pos range

theorem combine_count (range : inRange fits (aggregateOf .countAggregate (value ::ₘ values)) = true)
 :
 combineValue fits .countAggregate (aggregateOf .countAggregate values) value =
  some (aggregateOf .countAggregate (value ::ₘ values)) := by
 have more : aggregateOf .countAggregate (value ::ₘ values) = Option.merge Scalar.plus
  (value.map fun _ => .integer 1) (aggregateOf .countAggregate values) := by
  rw [aggregateOf, aggregateOf, Multiset.map_cons, Multiset.fold_cons_left]
 have integer := isInteger_aggregateOf_count values
 rw [more] at range ⊢
 generalize aggregateOf .countAggregate values = count at range integer ⊢
 cases value with
 | none => rw [Option.map_none, Option.merge_none_left, combineValue]; rfl
 | some scalar =>
  rw [Option.map_some] at range ⊢
  rw [← add_eq_plus integer range]
  cases count with
  | none => exact if_pos range
  | some _ => rfl

theorem combine_sum (integers : ∀ other ∈ value ::ₘ values, isInteger other = true)
 (range : inRange fits (aggregateOf .sumAggregate (value ::ₘ values)) = true) :
 combineValue fits .sumAggregate (aggregateOf .sumAggregate values) value =
  some (aggregateOf .sumAggregate (value ::ₘ values)) := by
 have more : aggregateOf .sumAggregate (value ::ₘ values) =
  Option.merge Scalar.plus value (aggregateOf .sumAggregate values) :=
  Multiset.fold_cons_left ..
 have integer : isInteger (aggregateOf .sumAggregate values) = true :=
  isInteger_fold_plus fun other member => integers other (Multiset.mem_cons_of_mem member)
 have own := integers value (Multiset.mem_cons_self _ _)
 rw [more] at range ⊢
 generalize aggregateOf .sumAggregate values = sum at range integer ⊢
 cases value with
 | none => rw [Option.merge_none_left, combineValue]; rfl
 | some scalar =>
  cases scalar with
  | other _ => cases own
  | integer val => exact add_eq_plus integer range

theorem combine_min :
 combineValue fits .minAggregate (aggregateOf .minAggregate values) value =
  some (aggregateOf .minAggregate (value ::ₘ values)) := by
 have more : aggregateOf .minAggregate (value ::ₘ values) =
  Option.merge min value (aggregateOf .minAggregate values) := Multiset.fold_cons_left ..
 rw [more]
 generalize aggregateOf .minAggregate values = least
 cases value with
 | none => rw [Option.merge_none_left, combineValue]; rfl
 | some scalar =>
  cases least with
  | none => rfl
  | some best =>
   rw [Option.merge_some_some]
   change some (if Datum.ofBool (decide (best < scalar)) = .cmpTrue then some best
    else some scalar) = some (some (min scalar best))
   by_cases less : best < scalar
   · rw [decide_eq_true less, min_eq_right less.le]
     rfl
   · rw [decide_eq_false less, min_eq_left (not_lt.mp less)]
     rfl

theorem combine_max :
 combineValue fits .maxAggregate (aggregateOf .maxAggregate values) value =
  some (aggregateOf .maxAggregate (value ::ₘ values)) := by
 have more : aggregateOf .maxAggregate (value ::ₘ values) =
  Option.merge max value (aggregateOf .maxAggregate values) := Multiset.fold_cons_left ..
 rw [more]
 generalize aggregateOf .maxAggregate values = greatest
 cases value with
 | none => rw [Option.merge_none_left, combineValue]; rfl
 | some scalar =>
  cases greatest with
  | none => rfl
  | some best =>
   rw [Option.merge_some_some]
   change some (if Datum.ofBool (decide (scalar < best)) = .cmpTrue then some best
    else some scalar) = some (some (max scalar best))
   by_cases less : scalar < best
   · rw [decide_eq_true less, max_eq_right less.le]
     rfl
   · rw [decide_eq_false less, max_eq_left (not_lt.mp less)]
     rfl

theorem combineValue_aggregateOf {aggType : AggregationType}
 (integers : aggType = .sumAggregate → ∀ other ∈ value ::ₘ values, isInteger other = true)
 (range : aggType ≠ .minAggregate → aggType ≠ .maxAggregate →
  inRange fits (aggregateOf aggType (value ::ₘ values)) = true) :
 combineValue fits aggType (aggregateOf aggType values) value =
  some (aggregateOf aggType (value ::ₘ values)) := by
 cases aggType with
 | countStarAggregate => exact combine_countStar (range (by decide) (by decide))
 | countAggregate => exact combine_count (range (by decide) (by decide))
 | sumAggregate => exact combine_sum (integers rfl) (range (by decide) (by decide))
 | minAggregate => exact combine_min
 | maxAggregate => exact combine_max

theorem combineAggregateValues_map {tuple : Tuple}
 {before now : AggregationType × (Tuple → ColumnValue Other) → ColumnValue Other}
 {aggregates : List (AggregationType × (Tuple → ColumnValue Other))}
 (each : ∀ aggregate ∈ aggregates,
  combineValue fits aggregate.1 (before aggregate) (aggregate.2 tuple) = some (now aggregate)) :
 combineAggregateValues fits (aggregates.map Prod.fst) (aggregates.map before)
  (aggregates.map fun aggregate => aggregate.2 tuple) = some (aggregates.map now) := by
 induction aggregates with
 | nil => rfl
 | cons aggregate rest ih =>
  rw [map_cons, map_cons, map_cons, combineAggregateValues,
   each aggregate mem_cons_self,
   ih fun other member => each other (mem_cons_of_mem _ member)]
  rfl

/-! ### One tuple more -/

def valueOf (tuples : List Tuple) : List (ColumnValue Other) :=
 plan.aggregates.map fun aggregate => aggregateOf aggregate.1
  ((tuples.map aggregate.2 : List (ColumnValue Other)) : Multiset (ColumnValue Other))

theorem valueOf_nil : plan.valueOf [] = generateInitialAggregateValue plan.aggregateTypes := by
 unfold valueOf generateInitialAggregateValue aggregateTypes
 rw [map_map]
 apply map_congr_left
 intro aggregate _
 rw [Function.comp_apply]
 cases aggregate.1 <;> rfl

theorem aggregateOf_concat (aggType : AggregationType) (expr : Tuple → ColumnValue Other)
 (tuples : List Tuple) (tuple : Tuple) :
 aggregateOf aggType (((tuples ++ [tuple]).map expr : List (ColumnValue Other)) :
  Multiset (ColumnValue Other)) = aggregateOf aggType (expr tuple ::ₘ
   ((tuples.map expr : List (ColumnValue Other)) : Multiset (ColumnValue Other))) := by
 congr 1
 simp

variable {plan}

variable {tuples : List Tuple}

theorem combine_valueOf (noOverflow : plan.NoOverflow fits tuples) {earlier : List Tuple}
 {tuple : Tuple} (front : earlier ++ [tuple] <+: tuples) :
 combineAggregateValues fits plan.aggregateTypes
  (plan.valueOf (group plan.makeAggregateKey earlier (plan.makeAggregateKey tuple)))
  (plan.makeAggregateValue tuple) =
  some (plan.valueOf
   (group plan.makeAggregateKey earlier (plan.makeAggregateKey tuple) ++ [tuple])) := by
 refine combineAggregateValues_map fun aggregate member => ?_
 rw [aggregateOf_concat]
 refine combineValue_aggregateOf (fun sum other inside => ?_) fun notMin notMax => ?_
 · rw [Multiset.cons_coe, Multiset.mem_coe, ← map_cons] at inside
   obtain ⟨row, inRows, same⟩ := mem_map.mp inside
   rw [← same]
   refine noOverflow.integers aggregate member sum row (front.subset ?_)
   rcases mem_cons.mp inRows with isTuple | inGroup
   · simp_all
   · exact mem_append_left _ (mem_of_mem_filter inGroup)
 · rw [← aggregateOf_concat, ← group_concat_self]
   exact noOverflow.fits aggregate member notMin notMax _ ((mem_inits _ _).mpr front) tuple
    (mem_append_right _ mem_cons_self)

theorem aggregateKeyEquals_map {groupBys : List (Tuple → ColumnValue Other)} {first second : Tuple}
 (firstValid : ∀ groupBy ∈ groupBys, groupBy first ≠ none)
 (secondValid : ∀ groupBy ∈ groupBys, groupBy second ≠ none) :
 aggregateKeyEquals (groupBys.map fun expr => expr first)
  (groupBys.map fun expr => expr second) =
  decide ((groupBys.map fun expr => expr first) = groupBys.map fun expr => expr second) := by
 induction groupBys with
 | nil => exact (decide_eq_true rfl).symm
 | cons groupBy rest ih =>
  have later := ih (fun other member => firstValid other (mem_cons_of_mem _ member))
   fun other member => secondValid other (mem_cons_of_mem _ member)
  obtain ⟨value, isFirst⟩ :=
   Option.ne_none_iff_exists'.mp (firstValid groupBy mem_cons_self)
  obtain ⟨other, isSecond⟩ :=
   Option.ne_none_iff_exists'.mp (secondValid groupBy mem_cons_self)
  rw [map_cons, map_cons, aggregateKeyEquals, later, isFirst, isSecond]
  by_cases same : value = other
  · rw [same, if_neg]
    · simp
    · rw [ColumnValue.compareEquals, decide_eq_true rfl]
      exact fun different => different rfl
  · rw [if_pos]
    · simp [same]
    · rw [ColumnValue.compareEquals, decide_eq_false same]
      exact fun different => by cases different

theorem groups_insertCombine
 (keys : ∀ tuple ∈ tuples, ∀ groupBy ∈ plan.groupBys, groupBy tuple ≠ none)
 (noOverflow : plan.NoOverflow fits tuples) :
 ∃ entries, tuples.foldlM (plan.insertCombine fits) [] = some entries ∧
  Groups plan.makeAggregateKey plan.valueOf tuples entries := by
 have exactly : ∀ key ∈ tuples.map plan.makeAggregateKey,
  ∀ other ∈ tuples.map plan.makeAggregateKey,
   aggregateKeyEquals key other = decide (key = other) := by
  intro key member other otherMember
  obtain ⟨tuple, inTuples, isKey⟩ := mem_map.mp member
  obtain ⟨otherTuple, otherInTuples, isOther⟩ := mem_map.mp otherMember
  rw [← isKey, ← isOther]
  exact aggregateKeyEquals_map (keys tuple inTuples) (keys otherTuple otherInTuples)
 have folded : ∃ entries, tuples.foldlM (fun entries tuple => put aggregateKeyEquals
  (fun result tuple => combineAggregateValues fits plan.aggregateTypes result
   (plan.makeAggregateValue tuple))
  (plan.valueOf []) (plan.makeAggregateKey tuple) tuple entries) [] = some entries ∧
   Groups plan.makeAggregateKey plan.valueOf tuples entries :=
  groups_foldlM exactly fun earlier tuple front => combine_valueOf noOverflow front
 rw [valueOf_nil] at folded
 exact folded

theorem rows_eq_groups {entries : List (AggregateEntry Other)}
 (groups : Groups plan.makeAggregateKey plan.valueOf tuples entries) :
 ((entries.map fun entry => entry.1 ++ entry.2 : List (List (ColumnValue Other))) :
  Multiset (List (ColumnValue Other))) = plan.groups tuples := by
 rw [← Multiset.map_coe, groups.eq_dedup, Multiset.map_map]
 rfl

end AggregationPlan

namespace AggregationExecutor

variable {Tuple : Type} {plan : AggregationPlan Tuple Other}

section

omit [LinearOrder Other]

theorem yields_entries {aht : List (AggregateEntry Other)} (nonempty : aht ≠ []) (hasAgg : Bool)
 (rest : List (AggregateEntry Other)) :
 Yields (next plan) ⟨aht, rest, hasAgg⟩ (rest.map fun entry => entry.1 ++ entry.2) := by
 induction rest with
 | nil =>
  refine yields_nil_of (fun state => state = ⟨aht, [], hasAgg⟩) rfl ?_ ?_
  · intro state same
    rw [same, next, if_pos nonempty]
  · intro state same
    rw [same, next, if_pos nonempty]
 | cons entry rest ih =>
  rw [map_cons, yields_cons, next, if_pos nonempty]
  exact ⟨rfl, ih⟩

theorem yields_flagged : Yields (next plan) ⟨[], [], true⟩ [] :=
 yields_nil_of (fun state => state = ⟨[], [], true⟩) rfl
  (fun state same => by rw [same]; rfl) fun state same => by rw [same]; rfl

theorem yields_empty : Yields (next plan) ⟨[], [], false⟩
 (if plan.groupBys.isEmpty then [generateInitialAggregateValue plan.aggregateTypes]
  else []) := by
 by_cases ungrouped : plan.groupBys.isEmpty = true
 · rw [if_pos ungrouped, yields_cons, next, if_neg (fun different => different rfl),
    if_neg Bool.false_ne_true, if_pos ungrouped]
   exact ⟨rfl, yields_flagged⟩
 · rw [if_neg ungrouped]
   refine yields_nil_of (fun state => state.aht = []) rfl ?_ ?_
   · intro state empty
     rw [next, if_neg fun different => different empty]
     by_cases flag : state.hasAgg = true
     · rw [if_pos flag]
     · rw [if_neg flag, if_neg ungrouped]
   · intro state empty
     rw [next, if_neg fun different => different empty]
     by_cases flag : state.hasAgg = true
     · rw [if_pos flag]
       exact empty
     · simp_all

end

/-- The calls of `Next` return the rows of `GROUP BY` over the tuples of the child, one for each
key, in the order of the hash table, and from then on nothing. -/
theorem yields_result {fits : ℤ → Bool} (order : IterationOrder (AggregateEntry Other))
 {child : List Tuple}
 (keys : ∀ tuple ∈ child, ∀ groupBy ∈ plan.groupBys, groupBy tuple ≠ none)
 (noOverflow : plan.NoOverflow fits child) :
 ∃ state rows, init plan fits order child start = some state ∧ Yields (next plan) state rows ∧
  (rows : Multiset (List (ColumnValue Other))) = plan.result child := by
 obtain ⟨entries, folded, groups⟩ := plan.groups_insertCombine keys noOverflow
 have perm := order.perm entries
 refine ⟨⟨order.order entries, order.order entries, false⟩, ?_⟩
 have initialised : init plan fits order child start =
  some ⟨order.order entries, order.order entries, false⟩ := by
  rw [init, folded]
  rfl
 cases child with
 | nil =>
  cases folded
  have empty : order.order ([] : List (AggregateEntry Other)) = [] :=
   perm_nil.mp (order.perm [])
  rw [empty] at initialised ⊢
  refine ⟨_, initialised, yields_empty, ?_⟩
  rw [AggregationPlan.result, Multiset.coe_nil, if_pos Multiset.card_zero]
  split <;> rfl
 | cons tuple rest =>
  have nonempty : order.order entries ≠ [] := by
   intro empty
   rw [empty] at perm
   have present := (groups.keys (plan.makeAggregateKey tuple)).mpr mem_cons_self
   rw [← perm.nil_eq] at present
   cases present
  refine ⟨_, initialised, yields_entries nonempty false _, ?_⟩
  rw [AggregationPlan.result, Multiset.coe_card, length_cons, if_neg (Nat.succ_ne_zero _),
   ← AggregationPlan.rows_eq_groups groups, Multiset.coe_eq_coe]
  exact perm.map _

def fiveAggregates : AggregationPlan (ColumnValue ℕ × ColumnValue ℕ) ℕ where
 groupBys := [Prod.fst]
 aggregates := [(.countStarAggregate, Prod.snd), (.countAggregate, Prod.snd),
  (.sumAggregate, Prod.snd), (.minAggregate, Prod.snd), (.maxAggregate, Prod.snd)]

def fourRows : List (ColumnValue ℕ × ColumnValue ℕ) :=
 [(some (.integer 1), some (.integer 5)), (some (.other 7), none),
  (some (.integer 1), none), (some (.integer 1), some (.integer (-2)))]

theorem yields_result_fourRows :
 ∃ state rows, init fiveAggregates (fun val => val.natAbs ≤ 2147483647) ⟨List.reverse,
  reverse_perm⟩ fourRows start = some state ∧
  Yields (next fiveAggregates) state rows ∧
  (rows : Multiset (List (ColumnValue ℕ))) =
   {[some (.integer 1), some (.integer 3), some (.integer 2), some (.integer 3),
    some (.integer (-2)), some (.integer 5)],
    [some (.other 7), some (.integer 1), none, none, none, none]} := by
 have noOverflow : fiveAggregates.NoOverflow (fun val => val.natAbs ≤ 2147483647) fourRows :=
  ⟨by decide, by decide⟩
 obtain ⟨state, rows, initialised, yields, same⟩ :=
  yields_result ⟨List.reverse, reverse_perm⟩ (by decide) noOverflow
 exact ⟨state, rows, initialised, yields, same.trans (by decide)⟩

end AggregationExecutor

end MyNotes.Cmu15445
