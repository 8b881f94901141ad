/-
Executors whose `Init` is called again, project 3.

The children of an executor restart, so that one that is read to its end is the list of its
tuples.  Only the table or the tuples of the children are what both runs have in common:
members that `Init` does not set keep their values.
-/

import MyNotes.Cmu15445.NestedLoopJoin
import MyNotes.Cmu15445.OptimizeSeqScanAsIndexScan
import MyNotes.Cmu15445.SortExecutors

namespace MyNotes.Cmu15445

open Library.PullIterator Library.Cursor Library.BoundedSelection List NestedLoopJoinExecutor
open HashJoinExecutor
open LimitExecutor
open Machine
open Bool
open Library.GroupedFold

variable {Value Tuple Schema Key Other : Type}

/-! ### The machines -/

/-- The iterator is made in the constructor, and `Init` does nothing. -/
def SeqScanExecutor.machine (engine : Engine Value Tuple Schema) (schema : Schema)
 (filterPredicate : Option (Expression Value)) (heap : TableHeap Tuple) :
 Machine (Tuple × RID) where
 State := TableHeap Tuple
 start := heap
 init := id
 next := pull (SeqScanExecutor.next engine schema filterPredicate) fun _ => []

def IndexScanExecutor.call (heap : TableHeap Tuple) :
 IndexScanExecutor.State → Option (Tuple × RID) × IndexScanExecutor.State :=
 pull (IndexScanExecutor.next heap) fun state =>
  if state.hasScan then state else { state with iter := [], hasScan := true }

/-- `Init`, which does not set `has_scan_`. -/
def IndexScanExecutor.scan [DecidableEq Key] (index : HashTableIndex Tuple Key) (key : Key)
 (self : IndexScanExecutor.State) : IndexScanExecutor.State :=
 ⟨index.scanKey key, index.scanKey key, self.hasScan⟩

def IndexScanExecutor.machine [DecidableEq Key] (heap : TableHeap Tuple)
 (index : HashTableIndex Tuple Key) (key : Key) : Machine (Tuple × RID) where
 State := IndexScanExecutor.State
 start := ⟨[], [], false⟩
 init := IndexScanExecutor.scan index key
 next := IndexScanExecutor.call heap

section Sorting

variable [LinearOrder Other]

def SortExecutor.machine (sorter : Sorter Tuple) (orderBys : OrderBys Tuple Other)
 (child : List Tuple) : Machine Tuple where
 State := SortExecutor Tuple
 start := SortExecutor.start
 init := SortExecutor.init sorter orderBys child
 next := SortExecutor.next

def TopNExecutor.machine (queue : PriorityQueue Tuple) (orderBys : OrderBys Tuple Other) (n : ℕ)
 (child : List Tuple) : Machine Tuple where
 State := TopNExecutor Tuple
 start := TopNExecutor.start
 init := TopNExecutor.init queue orderBys n child
 next := TopNExecutor.next

omit [LinearOrder Other] in
/-- `none` is what is left when `Init` throws. -/
def AggregationExecutor.call (plan : AggregationPlan Tuple Other) :
 Option (AggregationExecutor Other) →
  Option (List (ColumnValue Other)) × Option (AggregationExecutor Other)
 | none => (none, none)
 | some state => ((AggregationExecutor.next plan state).1,
  some (AggregationExecutor.next plan state).2)

def AggregationExecutor.machine (plan : AggregationPlan Tuple Other) (fits : ℤ → Bool)
 (order : IterationOrder (AggregateEntry Other)) (child : List Tuple) :
 Machine (List (ColumnValue Other)) where
 State := Option (AggregationExecutor Other)
 start := some AggregationExecutor.start
 init state := state.bind (AggregationExecutor.init plan fits order child)
 next := AggregationExecutor.call plan

end Sorting

def LimitExecutor.machine (limit : ℕ) (child : Machine Tuple) : Machine Tuple where
 State := LimitExecutor Tuple child.State
 start := LimitExecutor.start child.start
 init := LimitExecutor.init limit child.init child.next
 next := LimitExecutor.next

def exhausted (self : NestedLoopJoinExecutor.State Tuple) :
 NestedLoopJoinExecutor.State Tuple :=
 { self with hasJoin := false, left := [] }

/-- The right tuples stay in front of the other members. -/
def call (engine : Engine Value Tuple Schema) (join : Join Schema)
 (predicate : Expression Value) (self : List Tuple × NestedLoopJoinExecutor.State Tuple) :
 Option Tuple × List Tuple × NestedLoopJoinExecutor.State Tuple :=
 let called := pull (next engine join predicate self.1)
  exhausted self.2
 (called.1, self.1, called.2)

/-- `Init` clears no member. -/
def machine (engine : Engine Value Tuple Schema) (join : Join Schema)
 (predicate : Expression Value) (lefts rights : List Tuple) : Machine Tuple where
 State := List Tuple × NestedLoopJoinExecutor.State Tuple
 start := ([], init engine [])
 init state := (state.1 ++ rights, { state.2 with left := lefts })
 next := call engine join predicate

def HashJoinExecutor.exhausted (self : HashJoinExecutor.State Tuple) :
 HashJoinExecutor.State Tuple :=
 { self with hasHashJoin := false, left := [] }

/-- Whether the table of the iterator may be gone comes first.  A call that uses an iterator into
such a table returns no tuple, which is `some none`. -/
def HashJoinExecutor.call (engine : Engine Value Tuple Schema) (join : Join Schema)
 (leftKeys : List (Expression Value)) (table : SimpleHashJoinHashTable Value Tuple)
 (self : Bool × HashJoinExecutor.State Tuple) :
 Option (Option Tuple) × Bool × HashJoinExecutor.State Tuple :=
 if self.1 ∧ self.2.hasHashJoin then (some none, self)
 else
  let called := pull (next engine join leftKeys table)
   exhausted self.2
  (called.1.map some, false, called.2)

/-- `Init` makes a new table of the same tuples, and the one before is gone. -/
def HashJoinExecutor.machine (engine : Engine Value Tuple Schema) (join : Join Schema)
 (leftKeys rightKeys : List (Expression Value)) (lefts rights : List Tuple) :
 Machine (Option Tuple) where
 State := Bool × HashJoinExecutor.State Tuple
 start := (false, start engine [])
 init state := (true, { state.2 with left := lefts })
 next := call engine join leftKeys
  (init engine join rightKeys rights)

/-- The rows of a hash join, and whether they have a right tuple. -/
def markedRows (engine : Engine Value Tuple Schema) (join : Join Schema)
 (leftKeys rightKeys : List (Expression Value)) (lefts rights : List Tuple) :
 List (Tuple × Bool) :=
 join.markedRows engine (fun left => (init engine join rightKeys rights).getValue
  engine (makeLeftJoinKey engine join leftKeys left)) lefts

/-! ### Scans -/

namespace SeqScanExecutor

variable {engine : Engine Value Tuple Schema} {schema : Schema}
 {filterPredicate : Option (Expression Value)} {heap : TableHeap Tuple}

theorem restarts_iff (calls : ℕ) :
 (machine engine schema filterPredicate heap).Restarts calls ↔
  calls = 0 ∨ rows engine schema filterPredicate heap = [] := by
 have emits : Emits (next engine schema filterPredicate) heap
  (rows engine schema filterPredicate heap) := emits_rows heap
 have later : Emits (next engine schema filterPredicate)
  (after (pull (next engine schema filterPredicate) fun _ => []) calls heap)
  ((rows engine schema filterPredicate heap).drop calls) :=
  emits_after_pull (fun _ _ => rfl) emits calls
 rw [Machine.restarts_iff (drains_pull emits) (drains_pull later)]
 generalize rows engine schema filterPredicate heap = rows
 constructor
 · intro same
   have lengths := congrArg length same
   rw [length_drop] at lengths
   cases rows with
   | nil => exact .inr rfl
   | cons _ _ =>
    rw [length_cons] at lengths
    exact .inl (by omega)
 · intro either
   rcases either with none | empty
   · rw [none]
     rfl
   · rw [empty]
     exact drop_nil

end SeqScanExecutor

namespace IndexScanExecutor

variable [DecidableEq Key] {heap : TableHeap Tuple} {index : HashTableIndex Tuple Key} {key : Key}

section

variable {state : State} (flag : state.hasScan = true)
include flag

theorem call_hasScan : call heap state = (none, state) := by
 rw [call, pull, next, if_pos flag]
 exact congrArg (Prod.mk none) (if_pos flag)

theorem after_hasScan (calls : ℕ) : after (call heap) calls state = state :=
 after_invariant (fun now => now = state) (fun now same => by
  rw [same, call_hasScan flag]) calls rfl

theorem drains_hasScan : Drains (call heap) state [] := by
 rw [drains_nil, call_hasScan flag]

end

theorem drains_quiet {state : State} (quiet : nextFrom heap state state.iter = none) :
 Drains (call heap) state [] := by
 cases flag : state.hasScan with
 | true => exact drains_hasScan flag
 | false =>
  rw [drains_nil, call, pull_none]
  rw [next, flag]
  exact quiet

theorem nextFrom_eq_none {state : State} {rid : RID} {others : List RID}
 (rids : state.resultRids = rid :: others) : nextFrom heap state [rid] = none ↔
  ∀ tupleMeta tuple, heap.getTuple rid = some (tupleMeta, tuple) →
   tupleMeta.isDeleted = true := by
 unfold nextFrom
 rw [rids]
 cases heap.getTuple rid with
 | none =>
  simp
 | some stored =>
  obtain ⟨tupleMeta, tuple⟩ := stored
  cases deleted : tupleMeta.isDeleted with
  | true =>
   refine ⟨fun _ _ _ same => ?_, fun _ => ?_⟩
   · cases same
     exact deleted
   · dsimp only
     rw [deleted]
     rfl
  | false =>
   constructor
   · simp_all
   · simp_all

theorem restarts_live {rid : RID} {tupleMeta : TupleMeta} {tuple : Tuple}
 (scanned : index.scanKey key = [rid]) (stored : heap.getTuple rid = some (tupleMeta, tuple))
 (undeleted : tupleMeta.isDeleted = false) (calls : ℕ) :
 (machine heap index key).Restarts calls ↔ calls ≤ 1 := by
 have called : call heap ⟨[rid], [rid], false⟩ = (some (tuple, rid), ⟨[rid], [], false⟩) := by
  rw [call, pull, next, if_neg Bool.false_ne_true, nextFrom, stored]
  dsimp only
  rw [undeleted]
  rfl
 have begins : ∀ state : State, scan index key state = ⟨[rid], [rid], state.hasScan⟩ := by
  intro state
  rw [scan, scanned]
 have first : Drains (call heap) ⟨[rid], [rid], false⟩ [(tuple, rid)] := by
  rw [drains_cons, called]
  exact ⟨rfl, drains_nil.mpr rfl⟩
 have restarted : ∀ {others : List (Tuple × RID)},
  Drains (call heap) ⟨[rid], [rid], (after (call heap) calls ⟨[rid], [rid], false⟩).hasScan⟩
   others → ((machine heap index key).Restarts calls ↔ others = [(tuple, rid)]) := by
  intro others second
  rw [← begins] at second
  rw [← begins ⟨[], [], false⟩] at first second
  exact restarts_iff first second
 cases calls with
 | zero =>
  rw [restarted first]
  simp
 | succ calls =>
  cases calls with
  | zero =>
   rw [after_succ, called] at restarted
   rw [restarted first]
   simp
  | succ calls =>
   have ended :
    (after (call heap) (calls + 2) ⟨[rid], [rid], false⟩).hasScan = true := by
    rw [after_succ, after_succ, called]
    exact congrArg State.hasScan (after_hasScan rfl calls)
   rw [ended] at restarted
   rw [restarted (drains_hasScan rfl)]
   simp

theorem restarts_iff (calls : ℕ) :
 (machine heap index key).Restarts calls ↔
  calls ≤ 1 ∨ ∀ rid ∈ index.scanKey key, ∀ tupleMeta tuple,
   heap.getTuple rid = some (tupleMeta, tuple) → tupleMeta.isDeleted = true := by
 by_cases dead : ∀ rid ∈ index.scanKey key, ∀ tupleMeta tuple,
  heap.getTuple rid = some (tupleMeta, tuple) → tupleMeta.isDeleted = true
 · have quiet : ∀ state : State, Drains (call heap) (scan index key state) [] := by
    intro state
    apply drains_quiet
    rw [scan]
    cases scanned : index.scanKey key with
    | nil => rfl
    | cons rid others =>
     have single : others = [] := by
      unfold HashTableIndex.scanKey at scanned
      cases entry : index.entries key <;> rw [entry] at scanned <;> cases scanned
      rfl
     rw [single]
     refine (nextFrom_eq_none rfl).mpr (dead rid ?_)
     rw [scanned]
     exact mem_cons_self
   have restarted : (machine heap index key).Restarts calls ↔
    ([] : List (Tuple × RID)) = [] := Machine.restarts_iff (quiet _) (quiet _)
   grind
 · rw [or_iff_left dead]
   obtain ⟨rid, found⟩ := not_forall.mp dead
   obtain ⟨scanned, found⟩ := Classical.not_imp.mp found
   obtain ⟨tupleMeta, found⟩ := not_forall.mp found
   obtain ⟨tuple, found⟩ := not_forall.mp found
   obtain ⟨stored, live⟩ := Classical.not_imp.mp found
   refine restarts_live ?_ stored (eq_false_iff.mpr live) calls
   unfold HashTableIndex.scanKey at scanned ⊢
   cases entry : index.entries key with
   | none =>
    rw [entry] at scanned
    cases scanned
   | some other =>
    simp_all

end IndexScanExecutor

/-! ### Executors that collect their tuples -/

section Sorting

variable [LinearOrder Other]

omit [LinearOrder Other] in
theorem SortExecutor.tuples_after (state : SortExecutor Tuple) (calls : ℕ) :
 (after SortExecutor.next calls state).tuples = state.tuples := by
 have unchanged : ∀ now : SortExecutor Tuple, now.next.2.tuples = now.tuples := by
  intro now
  rw [next]
  cases now.iter <;> rfl
 exact after_invariant (fun now => now.tuples = state.tuples)
  (fun now same => (unchanged now).trans same) calls rfl

theorem SortExecutor.restarts_iff {sorter : Sorter Tuple} {orderBys : OrderBys Tuple Other}
 {child : List Tuple} (calls : ℕ) :
 (machine sorter orderBys child).Restarts calls ↔ child = [] := by
 have restarted : (machine sorter orderBys child).Restarts calls ↔
  sorter.sort (comparator orderBys)
   ((after next calls (init sorter orderBys child start)).tuples ++ child) =
   sorter.sort (comparator orderBys) child :=
  Machine.restarts_iff (SortExecutor.yields _).drains (SortExecutor.yields _).drains
 rw [restarted, tuples_after]
 change sorter.sort _ (sorter.sort _ child ++ child) = _ ↔ child = []
 constructor
 · intro same
   have lengths := congrArg length same
   rw [(sorter.perm _ _).length_eq, length_append, (sorter.perm _ _).length_eq] at lengths
   exact eq_nil_of_length_eq_zero (by omega)
 · intro empty
   have sorted : sorter.sort (comparator orderBys) [] = [] :=
    perm_nil.mp (sorter.perm _ [])
   rw [empty, append_nil, sorted, sorted]

omit [LinearOrder Other] in
theorem TopNExecutor.topEntries_after (state : TopNExecutor Tuple) (calls : ℕ) :
 (after TopNExecutor.next calls state).topEntries = state.topEntries.drop calls := by
 induction calls generalizing state with
 | zero => rfl
 | succ calls ih =>
  rw [after_succ, ih, next]
  cases left : state.topEntries with
  | nil =>
   rw [left, drop_nil, drop_nil]
  | cons tuple rest => rfl

theorem TopNExecutor.restarts_iff {queue : PriorityQueue Tuple} {orderBys : OrderBys Tuple Other}
 {n : ℕ} {child : List Tuple} (calls : ℕ) :
 (machine queue orderBys n child).Restarts calls ↔ min n child.length ≤ calls := by
 have restarted : (machine queue orderBys n child).Restarts calls ↔
  (init queue orderBys n child
   (after next calls (init queue orderBys n child start))).topEntries =
   (init queue orderBys n child start).topEntries :=
  Machine.restarts_iff (TopNExecutor.yields _).drains (TopNExecutor.yields _).drains
 have pushed : ∀ state : TopNExecutor Tuple, (init queue orderBys n child state).topEntries =
  (init queue orderBys n child start).topEntries ++ state.topEntries :=
  fun state => unload_append _ _ _
 have length : (init queue orderBys n child start).topEntries.length = min n child.length := by
  have unloaded : (init queue orderBys n child start).topEntries.Perm
   (child.foldl (offer queue (comparator orderBys) n) [] ++ []) := unload_perm _ []
  rw [unloaded.length_eq, append_nil, length_foldl_offer (Nat.zero_le _), length_nil,
   Nat.zero_add]
 rw [restarted, pushed, topEntries_after, append_right_eq_self, drop_eq_nil_iff, length]

namespace AggregationExecutor

variable {plan : AggregationPlan Tuple Other} {fits : ℤ → Bool}
 {order : IterationOrder (AggregateEntry Other)} {child : List Tuple}

omit [LinearOrder Other] in
theorem follows : Follows (next plan) (call plan) id fun state now => now = some state where
 returns state now same := by
  rw [same]
  exact Option.map_id_apply.symm
 step state now same := by
  rw [same]
  rfl

omit [LinearOrder Other] in
theorem drains_call {state : AggregationExecutor Other} {items : List (List (ColumnValue Other))}
 (drains : Drains (next plan) state items) : Drains (call plan) (some state) items := by
 have followed := follows.drains (rfl : some state = some state) drains
 rwa [map_id] at followed

theorem restarts_iff_of_folded {entries : List (AggregateEntry Other)}
 (folded : child.foldlM (plan.insertCombine fits) [] = some entries) {calls : ℕ}
 {rows others : List (List (ColumnValue Other))}
 (first : Drains (next plan) ⟨order.order entries, order.order entries, false⟩ rows)
 (second : Drains (next plan) ⟨order.order entries, order.order entries,
  (after (next plan) calls ⟨order.order entries, order.order entries, false⟩).hasAgg⟩ others) :
 (machine plan fits order child).Restarts calls ↔ others = rows := by
 have begins : ∀ state : AggregationExecutor Other, init plan fits order child state =
  some ⟨order.order entries, order.order entries, state.hasAgg⟩ := by
  intro state
  rw [init, folded]
  rfl
 have again : (after (call plan) calls (init plan fits order child start)).bind
  (init plan fits order child) = some ⟨order.order entries, order.order entries,
   (after (next plan) calls ⟨order.order entries, order.order entries, false⟩).hasAgg⟩ := by
  rw [begins, follows.after rfl calls]
  exact begins _
 have firstCall := drains_call first
 have secondCall := drains_call second
 have starts : init plan fits order child start =
  some ⟨order.order entries, order.order entries, false⟩ := begins start
 rw [← again] at secondCall
 rw [← starts] at firstCall
 exact restarts_iff firstCall secondCall

theorem restarts_of_thrown (thrown : child.foldlM (plan.insertCombine fits) [] = none)
 (calls : ℕ) : (machine plan fits order child).Restarts calls := by
 have begins : init plan fits order child start = none := by
  rw [init, thrown]
  rfl
 have stays : after (call plan) calls (none : Option (AggregationExecutor Other)) = none :=
  after_invariant (fun state => state = none) (fun state same => by rw [same]; rfl) calls
   rfl
 have again : (after (call plan) calls (init plan fits order child start)).bind
  (init plan fits order child) = none := by
  rw [begins, stays]
  rfl
 refine ⟨[], drains_nil.mpr ?_, drains_nil.mpr ?_⟩
 · exact congrArg (fun state => (call plan state).1) begins
 · exact congrArg (fun state => (call plan state).1) again

omit [LinearOrder Other] in
theorem hasAgg_after (calls : ℕ) :
 (after (next plan) (calls + 1) ⟨[], [], false⟩).hasAgg = true := by
 have called : (next plan ⟨[], [], false⟩).2 = ⟨[], [], true⟩ := by
  rw [next, if_neg fun different => different rfl, if_neg Bool.false_ne_true]
  split <;> rfl
 have stays : after (next plan) calls (⟨[], [], true⟩ : AggregationExecutor Other) =
  ⟨[], [], true⟩ := by
  refine after_invariant (fun state : AggregationExecutor Other => state = ⟨[], [], true⟩)
   (fun state same => ?_) calls rfl
  rw [same]
  rfl
 rw [after_succ, called, stays]

theorem restarts_iff_nil (calls : ℕ) : (machine plan fits order []).Restarts calls ↔
 plan.groupBys ≠ [] ∨ calls = 0 := by
 have folded : ([] : List Tuple).foldlM (plan.insertCombine fits) [] = some [] := rfl
 have none : order.order ([] : List (AggregateEntry Other)) = [] :=
  perm_nil.mp (order.perm [])
 have restarted : ∀ {rows others : List (List (ColumnValue Other))},
  Drains (next plan) ⟨order.order [], order.order [], false⟩ rows →
   Drains (next plan) ⟨order.order [], order.order [], (after (next plan) calls
    ⟨order.order [], order.order [], false⟩).hasAgg⟩ others →
   ((machine plan fits order []).Restarts calls ↔ others = rows) :=
  restarts_iff_of_folded folded
 rw [none] at restarted
 cases calls with
 | zero =>
  refine iff_of_true ?_ (.inr rfl)
  exact (restarted yields_empty.drains yields_empty.drains).mpr rfl
 | succ calls =>
  rw [hasAgg_after] at restarted
  rw [restarted yields_empty.drains yields_flagged.drains]
  cases grouped : plan.groupBys with
  | nil => simp
  | cons _ _ => simp

theorem restarts_iff (calls : ℕ) : (machine plan fits order child).Restarts calls ↔
 child ≠ [] ∨ plan.groupBys ≠ [] ∨ calls = 0 := by
 by_cases empty : child = []
 · rw [empty, restarts_iff_nil]
   simp
 · refine iff_of_true ?_ (.inl empty)
   cases folded : child.foldlM (plan.insertCombine fits) [] with
   | none => exact restarts_of_thrown folded calls
   | some entries =>
    have nonempty : order.order entries ≠ [] := by
     intro none
     have perm := order.perm entries
     rw [none] at perm
     exact foldlM_put_ne_nil folded (.inl empty) perm.nil_eq.symm
    exact (restarts_iff_of_folded folded (yields_entries nonempty false _).drains
     (yields_entries nonempty _ _).drains).mpr rfl

end AggregationExecutor

end Sorting

theorem LimitExecutor.fill_child {Child : Type} (childNext : Child → Option Tuple × Child)
 (limit : ℕ) (child : Child) :
 ∃ calls, (fill childNext limit child).2 = after childNext calls child := by
 induction limit generalizing child with
 | zero => exact ⟨0, rfl⟩
 | succ left ih =>
  rw [fill]
  cases called : childNext child with
  | mk returned later =>
   cases returned with
   | none => exact ⟨1, (congrArg Prod.snd called).symm⟩
   | some tuple =>
    obtain ⟨calls, same⟩ := ih later
    refine ⟨calls + 1, ?_⟩
    rw [after_succ, called]
    exact same

theorem LimitExecutor.after_eq {Child : Type} (state : LimitExecutor Tuple Child) (calls : ℕ) :
 (after next calls state).tuples = state.tuples ∧
  (after next calls state).child = state.child := by
 have unchanged : ∀ now : LimitExecutor Tuple Child,
  now.next.2.tuples = now.tuples ∧ now.next.2.child = now.child := by
  intro now
  rw [next]
  cases now.iter <;> exact ⟨rfl, rfl⟩
 exact after_invariant (fun now => now.tuples = state.tuples ∧ now.child = state.child)
  (fun now same => ⟨(unchanged now).1.trans same.1, (unchanged now).2.trans same.2⟩) calls
  ⟨rfl, rfl⟩

theorem LimitExecutor.restarts_iff {limit : ℕ} {child : Machine Tuple} {rows : List Tuple}
 (drains : Drains child.next (child.init child.start) rows)
 (restarts : ∀ calls, child.Restarts calls) (calls : ℕ) :
 (machine limit child).Restarts calls ↔ limit = 0 ∨ rows = [] := by
 have filled : ∀ state : LimitExecutor Tuple child.State,
  Drains child.next (child.init state.child) rows →
   (init limit child.init child.next state).iter = state.tuples ++ rows.take limit :=
  fun state given => congrArg (state.tuples ++ ·) (fill_eq_take given limit)
 generalize isFirst : init limit child.init child.next (start child.start) = first
 have firstIter : first.iter = rows.take limit := isFirst ▸ filled (start child.start) drains
 have firstTuples : first.tuples = rows.take limit := isFirst ▸ filled (start child.start) drains
 obtain ⟨tuples, sameChild⟩ := after_eq first calls
 have again : Drains child.next (child.init (after next calls first).child) rows := by
  obtain ⟨pulled, same⟩ := fill_child child.next limit (child.init child.start)
  have firstChild : first.child = child.ran pulled := isFirst ▸ same
  rw [sameChild, firstChild]
  exact (restarts pulled).drains drains
 have restarted : (machine limit child).Restarts calls ↔
  (init limit child.init child.next (after next calls first)).iter = first.iter := by
  rw [← isFirst]
  exact Machine.restarts_iff (yields _).drains (yields _).drains
 rw [restarted, filled _ again, firstIter, tuples, firstTuples, append_left_eq_self,
  take_eq_nil_iff]

/-! ### Joins -/

namespace NestedLoopJoinExecutor

variable {engine : Engine Value Tuple Schema} {join : Join Schema} {predicate : Expression Value}
 {rightTuples : List Tuple}

theorem follows (rightTuples : List Tuple) :
 Follows (pull (next engine join predicate rightTuples) exhausted) (call engine join predicate)
  id fun state now => now = (rightTuples, state) where
 returns state now same := by
  rw [same]
  exact Option.map_id_apply.symm
 step state now same := by
  rw [same]
  rfl

theorem drains_call {rows : List Tuple} {state : State Tuple}
 (emits : Emits (next engine join predicate rightTuples) state rows) :
 Drains (call engine join predicate) (rightTuples, state) rows := by
 have followed := (follows rightTuples).drains rfl (drains_pull emits)
 rwa [map_id] at followed

theorem emits_any (rightTuples : List Tuple) (state : State Tuple) :
 ∃ saved, Emits (next engine join predicate rightTuples) state
  (saved ++ rows engine join predicate state.left rightTuples) ∧
  (state.hasJoin = false → saved = []) := by
 cases flag : state.hasJoin with
 | false => exact ⟨[], emits_unsaved rightTuples _ state flag rfl, fun _ => rfl⟩
 | true =>
  have emits : Emits (next engine join predicate rightTuples)
   ⟨state.left, true, state.leftPreviousTuple, state.rightPreviousIndex⟩ _ :=
   emits_saved (emits_unsaved rightTuples state.left) _ _
  rw [← flag] at emits
  exact ⟨_, emits, fun impossible => by cases impossible⟩

theorem length_rows_twice_le (lefts rights : List Tuple) :
 (rows engine join predicate lefts rights).length ≤
  (rows engine join predicate lefts (rights ++ rights)).length := by
 refine length_flatMap_le fun left _ => ?_
 dsimp only
 rw [filter_append]
 exact Join.length_rowsOf_le left (sublist_append_left _ _)

theorem rows_twice_iff {lefts rights : List Tuple} :
 rows engine join predicate lefts (rights ++ rights) = rows engine join predicate lefts rights ↔
  ∀ left ∈ lefts, ∀ right ∈ rights, test engine join predicate left right = false := by
 refine (flatMap_eq_flatMap_iff fun left _ => ?_).trans (forall₂_congr fun left _ => ?_)
 · dsimp only
   rw [filter_append]
   exact Join.length_rowsOf_le left (sublist_append_left _ _)
 · have none : rights.filter (test engine join predicate left) = [] ↔
    ∀ right ∈ rights, test engine join predicate left right = false := by
    simp
   dsimp only
   rw [filter_append, Join.rowsOf_eq_iff left (sublist_append_left _ _), ← none,
    append_right_eq_self]
   refine or_iff_left fun padded => ?_
   obtain ⟨-, empty, right, one, -⟩ := padded
   rw [empty] at one
   cases one

theorem nextLeft_quiet {lefts : List Tuple}
 (quiet : ∀ left ∈ lefts, rightTuples.filter (test engine join predicate left) = [])
 {state : State Tuple} (flag : state.hasJoin = false) {row : Tuple} {later : State Tuple}
 (called : nextLeft engine join predicate rightTuples state lefts = some (row, later)) :
 later.hasJoin = false ∧ later.left ⊆ lefts := by
 induction lefts generalizing state with
 | nil => cases called
 | cons left rest ih =>
  have absent : findMatch engine join predicate left rightTuples 0 = none := by
   cases found : findMatch engine join predicate left rightTuples 0 with
   | none => rfl
   | some both =>
    have matched := (findMatch_some found).2.2
    rw [quiet left mem_cons_self] at matched
    cases matched
  rw [nextLeft, absent] at called
  cases kind : join.joinType with
  | left =>
   rw [kind] at called
   cases called
   exact ⟨flag, subset_cons_self _ _⟩
  | inner =>
   rw [kind] at called
   obtain ⟨unsaved, inside⟩ :=
    @ih (fun other member => quiet other (mem_cons_of_mem _ member))
     { state with left := rest } flag called
   exact ⟨unsaved, List.Subset.trans inside (subset_cons_self _ _)⟩

theorem hasJoin_after {state : State Tuple}
 (quiet : ∀ left ∈ state.left, rightTuples.filter (test engine join predicate left) = [])
 (flag : state.hasJoin = false) (calls : ℕ) :
 (after (pull (next engine join predicate rightTuples) exhausted) calls state).hasJoin =
  false := by
 refine (after_invariant (fun now : State Tuple => now.hasJoin = false ∧ now.left ⊆ state.left)
  (fun now unsaved => ?_) calls ⟨flag, List.Subset.refl _⟩).1
 cases called : next engine join predicate rightTuples now with
 | none =>
  rw [pull_none called]
  exact ⟨rfl, nil_subset _⟩
 | some both =>
  rw [pull_some called]
  rw [next, if_neg (eq_false_iff.mp unsaved.1)] at called
  obtain ⟨still, inside⟩ :=
   nextLeft_quiet (fun left member => quiet left (unsaved.2 member)) unsaved.1 called
  exact ⟨still, List.Subset.trans inside unsaved.2⟩

theorem restarts_iff {lefts rights : List Tuple} (calls : ℕ) :
 (machine engine join predicate lefts rights).Restarts calls ↔
  ∀ left ∈ lefts, ∀ right ∈ rights, test engine join predicate left right = false := by
 let ran := after (pull (next engine join predicate rights) exhausted) calls (init engine lefts)
 have any : ∃ saved, Emits (next engine join predicate (rights ++ rights))
  { ran with left := lefts } (saved ++ rows engine join predicate lefts (rights ++ rights)) ∧
   (ran.hasJoin = false → saved = []) :=
  emits_any (rights ++ rights) { ran with left := lefts }
 obtain ⟨saved, emits, unsaved⟩ := any
 have second : Drains (call engine join predicate)
  ((machine engine join predicate lefts rights).init
   ((machine engine join predicate lefts rights).ran calls))
  (saved ++ rows engine join predicate lefts (rights ++ rights)) := by
  have same : (machine engine join predicate lefts rights).ran calls = (rights, ran) :=
   (follows rights).after rfl calls
  rw [same]
  exact drains_call emits
 have restarted : (machine engine join predicate lefts rights).Restarts calls ↔
  saved ++ rows engine join predicate lefts (rights ++ rights) =
   rows engine join predicate lefts rights :=
  Machine.restarts_iff (drains_call (emits_rows lefts rights)) second
 rw [restarted]
 constructor
 · intro same
   have lengths := congrArg length same
   have longer : (rows engine join predicate lefts rights).length ≤
    (rows engine join predicate lefts (rights ++ rights)).length :=
    length_rows_twice_le lefts rights
   rw [length_append] at lengths
   have empty : saved = [] := eq_nil_of_length_eq_zero (by omega)
   rw [empty, nil_append] at same
   exact rows_twice_iff.mp same
 · intro quiet
   have none : ∀ left ∈ lefts, rights.filter (test engine join predicate left) = [] :=
    fun left member => filter_eq_nil_iff.mpr fun right inRights =>
     eq_false_iff.mp (quiet left member right inRights)
   rw [unsaved (hasJoin_after none rfl calls), nil_append]
   exact rows_twice_iff.mpr quiet

end NestedLoopJoinExecutor

namespace HashJoinExecutor

variable {engine : Engine Value Tuple Schema} {join : Join Schema}
 {leftKeys rightKeys : List (Expression Value)}

theorem follows (table : SimpleHashJoinHashTable Value Tuple) :
 Follows (pull (next engine join leftKeys table) exhausted) (call engine join leftKeys table)
  some fun state now => now.2 = state ∧ ¬(now.1 = true ∧ state.hasHashJoin = true) where
 returns state now both := by
  obtain ⟨same, valid⟩ := both
  subst same
  rw [call, if_neg valid]
 step state now both := by
  obtain ⟨same, valid⟩ := both
  subst same
  rw [call, if_neg valid]
  exact ⟨rfl, fun impossible => false_ne_true impossible.1⟩

theorem drains_call {table : SimpleHashJoinHashTable Value Tuple} {rows : List Tuple}
 {state : State Tuple} (unsaved : state.hasHashJoin = false)
 (emits : Emits (next engine join leftKeys table) state rows) :
 Drains (call engine join leftKeys table) (true, state) (rows.map some) := by
 refine (follows table).drains ⟨rfl, fun both => ?_⟩ (drains_pull emits)
 rw [both.2] at unsaved
 cases unsaved

theorem hasHashJoin_after (lefts rights : List Tuple) (calls : ℕ) :
 (after (pull (next engine join leftKeys (init engine join rightKeys rights)) exhausted) calls
  (start engine lefts)).hasHashJoin = true ↔
  calls ≠ 0 ∧ ∃ row, (markedRows engine join leftKeys rightKeys lefts rights)[calls - 1]? =
   some (row, true) := by
 cases calls with
 | zero => exact iff_of_false false_ne_true fun impossible => impossible.1 rfl
 | succ calls =>
  have emits : Emits (marked (next engine join leftKeys (init engine join rightKeys rights))
   State.hasHashJoin) (start engine lefts)
    (markedRows engine join leftKeys rightKeys lefts rights) :=
   emits_unsaved _ lefts _ rfl rfl
  have atEnd : ∀ now : State Tuple, (exhausted now).hasHashJoin = false := fun _ => rfl
  have shown : (after (pull (next engine join leftKeys (init engine join rightKeys rights))
   exhausted) (calls + 1) (start engine lefts)).hasHashJoin =
    ((markedRows engine join leftKeys rightKeys lefts rights)[calls]?.map Prod.snd).getD
     false :=
   shows_after_pull (fun _ _ => rfl) atEnd emits calls
  rw [shown, Nat.add_sub_cancel]
  cases (markedRows engine join leftKeys rightKeys lefts rights)[calls]? with
  | none => simp
  | some marked =>
   obtain ⟨row, mark⟩ := marked
   simp

theorem restarts_iff {lefts rights : List Tuple} (calls : ℕ) :
 (machine engine join leftKeys rightKeys lefts rights).Restarts calls ↔
  calls = 0 ∨ ∀ row, (markedRows engine join leftKeys rightKeys lefts rights)[calls - 1]? ≠
   some (row, true) := by
 let ran := after (pull (next engine join leftKeys (init engine join rightKeys rights)) exhausted)
  calls (start engine lefts)
 have saved : ran.hasHashJoin = true ↔ calls ≠ 0 ∧ ∃ row,
  (markedRows engine join leftKeys rightKeys lefts rights)[calls - 1]? = some (row, true) :=
  hasHashJoin_after lefts rights calls
 have again : ((machine engine join leftKeys rightKeys lefts rights).ran calls).2 = ran :=
  ((follows _).after ⟨rfl, fun both => Bool.false_ne_true both.2⟩ calls).1
 have drains : ∀ state : State Tuple, state.hasHashJoin = false → state.left = lefts →
  Drains (call engine join leftKeys (init engine join rightKeys rights)) (true, state)
   ((rows engine join leftKeys rightKeys lefts rights).map some) := by
  intro state unsaved remaining
  refine drains_call unsaved ?_
  rw [rows, ← Join.map_markedRows]
  exact (emits_unsaved _ lefts state unsaved remaining).of_marked
 have second : (machine engine join leftKeys rightKeys lefts rights).init
  ((machine engine join leftKeys rightKeys lefts rights).ran calls) =
   (true, { ran with left := lefts }) := by
  rw [← again]
  rfl
 by_cases flag : ran.hasHashJoin = true
 · refine iff_of_false (fun restarts => ?_) fun either => ?_
   · -- The first call uses the iterator into the table that is gone.
     obtain ⟨items, firstDrains, secondDrains⟩ := restarts
     rw [firstDrains.unique (drains (start engine lefts) rfl rfl), second] at secondDrains
     have called := secondDrains 0 (Nat.zero_le _)
     have undefined : (call engine join leftKeys (init engine join rightKeys rights)
      (true, { ran with left := lefts })).1 = some none :=
      congrArg Prod.fst (if_pos ⟨rfl, flag⟩)
     rw [getElem?_map] at called
     obtain ⟨row, -, impossible⟩ := Option.map_eq_some_iff.mp (called.symm.trans undefined)
     cases impossible
   · obtain ⟨called, row, last⟩ := saved.mp flag
     rcases either with none | unmatched
     · exact called none
     · exact unmatched row last
 · refine iff_of_true ?_ ?_
   · refine ⟨_, drains (start engine lefts) rfl rfl, ?_⟩
     rw [second]
     exact drains _ (Bool.eq_false_iff.mpr flag) rfl
   · by_cases none : calls = 0
     · exact .inl none
     · exact .inr fun row last => flag (saved.mpr ⟨none, row, last⟩)

end HashJoinExecutor

/-! ### All executors -/

/-- Set up again after some calls, an executor drains as it did at first: a sequential scan if it
had not been called or is empty; an index scan if it had been called once at most or finds no live
tuple; a sort over no tuples; a limit that is zero or over no tuples; top-N if all had been
returned; an aggregation over tuples or with groups or if it had not been called; a nested loop
join without a match; a hash join unless the last call returned a row with a right tuple. -/
theorem executors_restart_iff [DecidableEq Key] [LinearOrder Other] (calls : ℕ) :
 (∀ (engine : Engine Value Tuple Schema) (schema : Schema)
  (filterPredicate : Option (Expression Value)) (heap : TableHeap Tuple),
  (SeqScanExecutor.machine engine schema filterPredicate heap).Restarts calls ↔
   calls = 0 ∨ SeqScanExecutor.rows engine schema filterPredicate heap = []) ∧
 (∀ (heap : TableHeap Tuple) (index : HashTableIndex Tuple Key) (key : Key),
  (IndexScanExecutor.machine heap index key).Restarts calls ↔
   calls ≤ 1 ∨ ∀ rid ∈ index.scanKey key, ∀ tupleMeta tuple,
    heap.getTuple rid = some (tupleMeta, tuple) → tupleMeta.isDeleted = true) ∧
 (∀ (sorter : Sorter Tuple) (orderBys : OrderBys Tuple Other) (child : List Tuple),
  (SortExecutor.machine sorter orderBys child).Restarts calls ↔ child = []) ∧
 (∀ (limit : ℕ) (child : Machine Tuple) (rows : List Tuple),
  Drains child.next (child.init child.start) rows → (∀ pulled, child.Restarts pulled) →
   ((LimitExecutor.machine limit child).Restarts calls ↔ limit = 0 ∨ rows = [])) ∧
 (∀ (queue : PriorityQueue Tuple) (orderBys : OrderBys Tuple Other) (n : ℕ)
  (child : List Tuple),
  (TopNExecutor.machine queue orderBys n child).Restarts calls ↔
   min n child.length ≤ calls) ∧
 (∀ (plan : AggregationPlan Tuple Other) (fits : ℤ → Bool)
  (order : IterationOrder (AggregateEntry Other)) (child : List Tuple),
  (AggregationExecutor.machine plan fits order child).Restarts calls ↔
   child ≠ [] ∨ plan.groupBys ≠ [] ∨ calls = 0) ∧
 (∀ (engine : Engine Value Tuple Schema) (join : Join Schema) (predicate : Expression Value)
  (lefts rights : List Tuple),
  (machine engine join predicate lefts rights).Restarts calls ↔
   ∀ left ∈ lefts, ∀ right ∈ rights,
    test engine join predicate left right = false) ∧
 (∀ (engine : Engine Value Tuple Schema) (join : Join Schema)
  (leftKeys rightKeys : List (Expression Value)) (lefts rights : List Tuple),
  (HashJoinExecutor.machine engine join leftKeys rightKeys lefts rights).Restarts calls ↔
   calls = 0 ∨ ∀ row, (markedRows engine join leftKeys rightKeys lefts
    rights)[calls - 1]? ≠ some (row, true)) :=
 ⟨fun _ _ _ _ => SeqScanExecutor.restarts_iff calls,
  fun _ _ _ => IndexScanExecutor.restarts_iff calls,
  fun _ _ _ => SortExecutor.restarts_iff calls,
  fun _ _ _ drains restarts => LimitExecutor.restarts_iff drains restarts calls,
  fun _ _ _ _ => TopNExecutor.restarts_iff calls,
  fun _ _ _ _ => AggregationExecutor.restarts_iff calls,
  fun _ _ _ _ _ => restarts_iff calls,
  fun _ _ _ _ _ _ => restarts_iff calls⟩

theorem executors_restart_iff_limitOne :
 ¬(LimitExecutor.machine 1 (Machine.ofList [4, 5])).Restarts 2 := by
 have drains := Machine.drains_ofList [4, 5]
 have restarted := (@executors_restart_iff Datum ℕ Unit ℕ ℕ _ _ 2).2.2.2.1 1
  (Machine.ofList [4, 5]) [4, 5] drains fun _ => ⟨[4, 5], drains, drains⟩
 exact fun restarts => absurd (restarted.mp restarts) (by decide)

/-- A sort that is drained, and then set up again, returns its one tuple twice. -/
theorem SortExecutor.not_restarts_oneRow :
 ¬(SortExecutor.machine (scanQueue ℕ).sorter ([] : OrderBys ℕ ℕ) [7]).Restarts 2 := by
 rw [SortExecutor.restarts_iff]
 exact cons_ne_nil 7 []

end MyNotes.Cmu15445
