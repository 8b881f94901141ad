/-
`SortExecutor`, `LimitExecutor` and `TopNExecutor` of project 3, and their comparator.

A child that is read to its end is the list of its tuples, and `LimitExecutor` calls its
child.  `std::sort` and `std::priority_queue` are parameters.
-/

import MyNotes.Library.BoundedSelection
import MyNotes.Cmu15445.AggregationExecutor

namespace MyNotes.Cmu15445

open Library.Cursor Library.BoundedSelection List

inductive OrderByType where
 | invalid
 | default
 | asc
 | desc
 deriving DecidableEq

abbrev OrderBys (Tuple Other : Type) := List (OrderByType × (Tuple → ColumnValue Other))

variable {Tuple Other : Type} [LinearOrder Other]

/-- `Comparator::operator()`. -/
def comparator : OrderBys Tuple Other → Tuple → Tuple → Bool
 | [], _, _ => false
 | orderBy :: rest, t1, t2 =>
  let v1 := orderBy.2 t1
  let v2 := orderBy.2 t2
  if v1.compareEquals v2 = .cmpTrue then comparator rest t1 t2
  else if orderBy.1 = .asc ∨ orderBy.1 = .default then v1.compareLessThan v2 = .cmpTrue
  else v1.compareGreaterThan v2 = .cmpTrue

/-! ### The executors -/

structure SortExecutor (Tuple : Type) where
 tuples : List Tuple
 iter : List Tuple

namespace SortExecutor

omit [LinearOrder Other] in
def start : SortExecutor Tuple := ⟨[], []⟩

def init (sorter : Sorter Tuple) (orderBys : OrderBys Tuple Other) (child : List Tuple)
 (self : SortExecutor Tuple) : SortExecutor Tuple :=
 let sorted := sorter.sort (comparator orderBys) (self.tuples ++ child)
 ⟨sorted, sorted⟩

def next (self : SortExecutor Tuple) : Option Tuple × SortExecutor Tuple :=
 match self.iter with
 | [] => (none, self)
 | tuple :: rest => (some tuple, { self with iter := rest })

end SortExecutor

structure LimitExecutor (Tuple Child : Type) where
 child : Child
 tuples : List Tuple
 iter : List Tuple

namespace LimitExecutor

variable {Child : Type}

/-- The loop of `Init`, from a count that is so much below the limit. -/
def fill (childNext : Child → Option Tuple × Child) : ℕ → Child → List Tuple × Child
 | 0, child => ([], child)
 | left + 1, child =>
  match childNext child with
  | (none, child) => ([], child)
  | (some tuple, child) =>
   (tuple :: (fill childNext left child).1, (fill childNext left child).2)

def start (child : Child) : LimitExecutor Tuple Child := ⟨child, [], []⟩

def init (limit : ℕ) (childInit : Child → Child) (childNext : Child → Option Tuple × Child)
 (self : LimitExecutor Tuple Child) : LimitExecutor Tuple Child :=
 let filled := fill childNext limit (childInit self.child)
 ⟨filled.2, self.tuples ++ filled.1, self.tuples ++ filled.1⟩

def next (self : LimitExecutor Tuple Child) : Option Tuple × LimitExecutor Tuple Child :=
 match self.iter with
 | [] => (none, self)
 | tuple :: rest => (some tuple, { self with iter := rest })

end LimitExecutor

structure TopNExecutor (Tuple : Type) where
 heap : List Tuple
 topEntries : List Tuple

namespace TopNExecutor

def start : TopNExecutor Tuple := ⟨[], []⟩

def init (queue : PriorityQueue Tuple) (orderBys : OrderBys Tuple Other) (n : ℕ)
 (child : List Tuple) (self : TopNExecutor Tuple) : TopNExecutor Tuple :=
 let heap := child.foldl (offer queue (comparator orderBys) n) []
 ⟨[], unload queue (comparator orderBys) heap.length heap self.topEntries⟩

def next (self : TopNExecutor Tuple) : Option Tuple × TopNExecutor Tuple :=
 match self.topEntries with
 | [] => (none, self)
 | tuple :: rest => (some tuple, { self with topEntries := rest })

end TopNExecutor

/-! ### The comparator -/

def sortKeys (orderBys : OrderBys Tuple Other) (tuple : Tuple) : List (ColumnValue Other) :=
 orderBys.map fun orderBy => orderBy.2 tuple

/-- No sort key is `NULL`. -/
def ValidKeys (orderBys : OrderBys Tuple Other) (tuple : Tuple) : Prop :=
 ∀ orderBy ∈ orderBys, orderBy.2 tuple ≠ none

def before (orderType : OrderByType) (v1 v2 : Scalar Other) : Bool :=
 if orderType = .asc ∨ orderType = .default then v1 < v2 else v2 < v1

variable {orderType : OrderByType} {v1 v2 : Scalar Other}

theorem before_asymm (less : before orderType v1 v2 = true) : before orderType v2 v1 = false := by
 unfold before at less ⊢
 by_cases up : orderType = .asc ∨ orderType = .default
 · grind
 · grind

theorem before_total (different : v1 ≠ v2) :
 before orderType v1 v2 = true ∨ before orderType v2 v1 = true := by
 unfold before
 by_cases up : orderType = .asc ∨ orderType = .default
 · simp_all
 · grind

theorem before_trans {v3 : Scalar Other} (first : before orderType v1 v2 = true)
 (second : before orderType v2 v3 = true) :
 before orderType v1 v3 = true := by
 unfold before at *
 by_cases up : orderType = .asc ∨ orderType = .default
 · grind
 · grind

variable {t1 t2 : Tuple}

theorem comparator_cons {orderBy : OrderByType × (Tuple → ColumnValue Other)}
 {rest : OrderBys Tuple Other} (first : orderBy.2 t1 = some v1) (second : orderBy.2 t2 = some v2)
 :
 comparator (orderBy :: rest) t1 t2 =
  if v1 = v2 then comparator rest t1 t2 else before orderBy.1 v1 v2 := by
 rw [comparator, first, second]
 by_cases same : v1 = v2
 · rw [if_pos same, if_pos]
   change Datum.ofBool (decide (v1 = v2)) = .cmpTrue
   rw [decide_eq_true same]
   rfl
 · have less : ∀ holds : Prop, [Decidable holds] →
    decide (Datum.ofBool (decide holds) = .cmpTrue) = decide holds := by
    intro holds _
    by_cases now : holds
    · rw [decide_eq_true now]
      rfl
    · rw [decide_eq_false now]
      rfl
   rw [if_neg same, if_neg]
   · change (if orderBy.1 = .asc ∨ orderBy.1 = .default then
      decide (Datum.ofBool (decide (v1 < v2)) = .cmpTrue)
      else decide (Datum.ofBool (decide (v2 < v1)) = .cmpTrue)) = before orderBy.1 v1 v2
     rw [less, less]
     rfl
   · change Datum.ofBool (decide (v1 = v2)) ≠ .cmpTrue
     rw [decide_eq_false same]
     exact fun impossible => by cases impossible

omit [LinearOrder Other] in
theorem ValidKeys.exists_some {orderBy : OrderByType × (Tuple → ColumnValue Other)}
 {rest : OrderBys Tuple Other} {tuple : Tuple} (valid : ValidKeys (orderBy :: rest) tuple) :
 (∃ value, orderBy.2 tuple = some value) ∧ ValidKeys rest tuple :=
 ⟨Option.ne_none_iff_exists'.mp (valid orderBy mem_cons_self),
  fun other member => valid other (mem_cons_of_mem _ member)⟩

variable {orderBys : OrderBys Tuple Other}

section

variable (valid1 : ValidKeys orderBys t1)
include valid1

theorem comparator_asymm (valid2 : ValidKeys orderBys t2) (less : comparator orderBys t1 t2 = true)
 : comparator orderBys t2 t1 = false := by
 induction orderBys with
 | nil => cases less
 | cons orderBy rest ih =>
  obtain ⟨⟨v1, first⟩, rest1⟩ := valid1.exists_some
  obtain ⟨⟨v2, second⟩, rest2⟩ := valid2.exists_some
  rw [comparator_cons first second] at less
  rw [comparator_cons second first]
  by_cases same : v1 = v2
  · simp_all
  · rw [if_neg same] at less
    rw [if_neg fun equal => same equal.symm]
    exact before_asymm less

theorem comparator_negTrans {t3 : Tuple} (valid2 : ValidKeys orderBys t2)
 (valid3 : ValidKeys orderBys t3) (notFirst : comparator orderBys t1 t2 = false)
 (notSecond : comparator orderBys t2 t3 = false) : comparator orderBys t1 t3 = false := by
 induction orderBys with
 | nil => rfl
 | cons orderBy rest ih =>
  obtain ⟨⟨v1, first⟩, rest1⟩ := valid1.exists_some
  obtain ⟨⟨v2, second⟩, rest2⟩ := valid2.exists_some
  obtain ⟨⟨v3, third⟩, rest3⟩ := valid3.exists_some
  rw [comparator_cons first second] at notFirst
  rw [comparator_cons second third] at notSecond
  rw [comparator_cons first third]
  by_cases same12 : v1 = v2
  · subst same12
    rw [if_pos rfl] at notFirst
    by_cases same13 : v1 = v3
    · simp_all
    · simp_all
  · rw [if_neg same12] at notFirst
    have back := (before_total same12).resolve_left (Bool.eq_false_iff.mp notFirst)
    by_cases same23 : v2 = v3
    · simp_all
    · rw [if_neg same23] at notSecond
      have further := before_trans
       ((before_total same23).resolve_left (Bool.eq_false_iff.mp notSecond)) back
      have same13 : v1 ≠ v3 := by
       intro equal
       subst equal
       have impossible := before_asymm further
       rw [further] at impossible
       cases impossible
      rw [if_neg same13]
      exact before_asymm further

theorem sortKeys_eq (valid2 : ValidKeys orderBys t2) (notFirst : comparator orderBys t1 t2 = false)
 (notSecond : comparator orderBys t2 t1 = false) : sortKeys orderBys t1 = sortKeys orderBys t2 := by
 induction orderBys with
 | nil => rfl
 | cons orderBy rest ih =>
  obtain ⟨⟨v1, first⟩, rest1⟩ := valid1.exists_some
  obtain ⟨⟨v2, second⟩, rest2⟩ := valid2.exists_some
  rw [comparator_cons first second] at notFirst
  rw [comparator_cons second first] at notSecond
  by_cases same : v1 = v2
  · rw [if_pos same] at notFirst
    rw [if_pos same.symm] at notSecond
    unfold sortKeys at ih ⊢
    grind
  · rw [if_neg same] at notFirst
    rw [if_neg fun equal => same equal.symm] at notSecond
    have either : before orderBy.1 v1 v2 = true ∨ before orderBy.1 v2 v1 = true :=
     before_total same
    rcases either with less | more
    · rw [less] at notFirst
      cases notFirst
    · simp_all

end

theorem comparator_congr {again1 again2 : Tuple}
 (same1 : sortKeys orderBys t1 = sortKeys orderBys again1)
 (same2 : sortKeys orderBys t2 = sortKeys orderBys again2) :
 comparator orderBys t1 t2 = comparator orderBys again1 again2 := by
 induction orderBys with
 | nil => rfl
 | cons orderBy rest ih =>
  obtain ⟨head1, tail1⟩ := List.cons.inj same1
  obtain ⟨head2, tail2⟩ := List.cons.inj same2
  dsimp only at head1 head2
  unfold comparator
  rw [head1, head2, ih tail1 tail2]

theorem strictWeakOrder_comparator {tuples : List Tuple}
 (valid : ∀ tuple ∈ tuples, ValidKeys orderBys tuple) :
 StrictWeakOrder (comparator orderBys) tuples where
 asymm t1 in1 t2 in2 := comparator_asymm (valid t1 in1) (valid t2 in2)
 negTrans t1 in1 t2 in2 t3 in3 := comparator_negTrans (valid t1 in1) (valid t2 in2) (valid t3 in3)

/-! ### Top-N, and a limit on a sort -/

section

omit [LinearOrder Other]

theorem SortExecutor.yields (state : SortExecutor Tuple) :
 Yields SortExecutor.next state state.iter :=
 yields_of_list SortExecutor.iter (fun now empty => by rw [SortExecutor.next, empty])
  fun now tuple rest left => by rw [SortExecutor.next, left]; exact ⟨rfl, rfl⟩

theorem LimitExecutor.yields {Child : Type} (state : LimitExecutor Tuple Child) :
 Yields LimitExecutor.next state state.iter :=
 yields_of_list LimitExecutor.iter (fun now empty => by rw [LimitExecutor.next, empty])
  fun now tuple rest left => by rw [LimitExecutor.next, left]; exact ⟨rfl, rfl⟩

theorem TopNExecutor.yields (state : TopNExecutor Tuple) :
 Yields TopNExecutor.next state state.topEntries :=
 yields_of_list TopNExecutor.topEntries (fun now empty => by rw [TopNExecutor.next, empty])
  fun now tuple rest left => by rw [TopNExecutor.next, left]; exact ⟨rfl, rfl⟩

theorem LimitExecutor.fill_eq_take {Child : Type} {childNext : Child → Option Tuple × Child}
 {child : Child} {tuples : List Tuple} (drains : Drains childNext child tuples) (limit : ℕ) :
 (fill childNext limit child).1 = tuples.take limit := by
 induction limit generalizing child tuples with
 | zero => rfl
 | succ left ih =>
  cases tuples with
  | nil =>
   have ended : (childNext child).1 = none := drains_nil.mp drains
   rw [fill, ← Prod.mk.eta (p := childNext child), ended]
   rfl
  | cons tuple rest =>
   obtain ⟨returned, later⟩ := drains_cons.mp drains
   rw [fill, ← Prod.mk.eta (p := childNext child), returned]
   exact congrArg (tuple :: ·) (ih later)

end

theorem TopNExecutor.exists_topEntries {child : List Tuple} (queue : PriorityQueue Tuple) (n : ℕ)
 (order : StrictWeakOrder (comparator orderBys) child) :
 ∃ kept dropped, Selected (comparator orderBys) n child kept dropped ∧
  (init queue orderBys n child start).topEntries.Perm kept ∧
  Ordered (comparator orderBys) (init queue orderBys n child start).topEntries := by
 obtain ⟨dropped, selected⟩ := exists_selected queue n order
 have inside : ∀ tuple ∈ child.foldl (offer queue (comparator orderBys) n) [], tuple ∈ child :=
  fun tuple member => selected.perm.mem_iff.mp (mem_append_left _ member)
 refine ⟨_, dropped, selected, ?_, ?_⟩
 · rw [← append_nil (child.foldl _ _)]
   exact unload_perm _ []
 · exact unload_ordered (order.subset inside) List.Pairwise.nil
    fun _ _ _ impossible => by cases impossible

/-- Top-N returns as many tuples as a limit on a sort, both in order and with the same keys; the
same tuples if no two have the same keys. -/
theorem TopNExecutor.agrees_with_limit {orderBys : OrderBys Tuple Other} {child : List Tuple}
 (queue : PriorityQueue Tuple) (sorter : Sorter Tuple) (n : ℕ)
 (valid : ∀ tuple ∈ child, ValidKeys orderBys tuple) :
 ∃ top limited, Yields TopNExecutor.next (init queue orderBys n child start) top ∧
  Yields LimitExecutor.next (LimitExecutor.init n (SortExecutor.init sorter orderBys child)
   SortExecutor.next (LimitExecutor.start SortExecutor.start)) limited ∧
  top.length = min n child.length ∧ limited.length = min n child.length ∧
  Ordered (comparator orderBys) top ∧ Ordered (comparator orderBys) limited ∧
  top.map (sortKeys orderBys) = limited.map (sortKeys orderBys) ∧
  ((child.map (sortKeys orderBys)).Nodup → top = limited) := by
 have order := strictWeakOrder_comparator valid
 obtain ⟨kept, dropped, selected, perm, ordered⟩ := exists_topEntries queue n order
 have sorted := sorter.perm (comparator orderBys) child
 have limited : (LimitExecutor.init n (SortExecutor.init sorter orderBys child) SortExecutor.next
  (LimitExecutor.start SortExecutor.start)).iter =
   (sorter.sort (comparator orderBys) child).take n :=
  LimitExecutor.fill_eq_take (SortExecutor.yields _).drains n
 have same := selected.map_take_sort order sorter perm ordered
  (fun t1 in1 t2 in2 => sortKeys_eq (valid t1 in1) (valid t2 in2))
  fun t1 t2 again1 again2 => comparator_congr
 refine ⟨_, (sorter.sort (comparator orderBys) child).take n, TopNExecutor.yields _,
  limited ▸ LimitExecutor.yields _, ?_, ?_, ordered,
  (sorter.ordered _ child order).sublist (take_sublist _ _), same.symm, fun distinct => ?_⟩
 · rw [perm.length_eq, selected.length]
 · rw [length_take, sorted.length_eq]
 · refine eq_of_map_eq (fun t1 in1 t2 in2 => ?_) same.symm
   have fromChild1 := selected.perm.mem_iff.mp (mem_append_left dropped (perm.mem_iff.mp in1))
   have fromChild2 := sorted.mem_iff.mp (mem_of_mem_take in2)
   exact inj_on_of_nodup_map distinct fromChild1 fromChild2

/-- By the first column downwards and by the second upwards. -/
def twoKeys : OrderBys (ColumnValue ℕ × ColumnValue ℕ) ℕ :=
 [(.desc, Prod.fst), (.default, Prod.snd)]

def keyedRows : List (ColumnValue ℕ × ColumnValue ℕ) :=
 [(some (.integer 1), some (.integer 5)), (some (.integer 2), some (.other 7)),
  (some (.integer 2), some (.other 3)), (some (.integer 0), some (.integer 4))]

theorem TopNExecutor.agrees_with_limit_keyedRows :
 ∃ top limited, Yields TopNExecutor.next (init (scanQueue _) twoKeys 3 keyedRows start) top ∧
  Yields LimitExecutor.next (LimitExecutor.init 3
   (SortExecutor.init (scanQueue _).sorter twoKeys keyedRows) SortExecutor.next
   (LimitExecutor.start SortExecutor.start)) limited ∧
  top.length = 3 ∧ Ordered (comparator twoKeys) top ∧ top = limited := by
 have valid : ∀ tuple ∈ keyedRows, ValidKeys twoKeys tuple := by
  unfold ValidKeys
  decide
 obtain ⟨top, limited, topYields, limitedYields, length, -, ordered, -, -, same⟩ :=
  agrees_with_limit (scanQueue _) (scanQueue _).sorter 3 valid
 exact ⟨top, limited, topYields, limitedYields, length, ordered, same (by decide)⟩

end MyNotes.Cmu15445
