/-
`SeqScanExecutor`, `IndexScanExecutor` and `Optimizer::OptimizeSeqScanAsIndexScan` of
project 3.

`GetTuple` is only called with record ids of the table.  The key of an index is made from
a list of values.
-/

import MyNotes.Cmu15445.TableHeap
import MyNotes.Cmu15445.EquiJoin

namespace MyNotes.Cmu15445

open Library.PullIterator List

variable {Value Tuple Schema Key : Type}

structure IndexInfo (Value Tuple Key : Type) where
 indexOid : ℕ
 keyAttrs : List ℕ
 makeKey : List Value → Key
 index : HashTableIndex Tuple Key

structure Table (Value Tuple Schema Key : Type) where
 schema : Schema
 heap : TableHeap Tuple
 indexes : List (IndexInfo Value Tuple Key)

structure SeqScanPlanNode (Value : Type) where
 tableOid : ℕ
 filterPredicate : Option (Expression Value)

structure IndexScanPlanNode (Value : Type) where
 tableOid : ℕ
 indexOid : ℕ
 filterPredicate : Option (Expression Value)
 predKey : Option Value

/-- A node with other work is a result, or an operator on the results of its children. -/
inductive ScanPlan (Value Tuple : Type) where
 | seqScan (node : SeqScanPlanNode Value)
 | indexScan (node : IndexScanPlanNode Value)
 | values (result : List (Tuple × RID))
 | unary (operator : List (Tuple × RID) → List (Tuple × RID)) (child : ScanPlan Value Tuple)
 | binary (operator : List (Tuple × RID) → List (Tuple × RID) → List (Tuple × RID))
  (left right : ScanPlan Value Tuple)

/-! ### Executors -/

namespace SeqScanExecutor

variable (engine : Engine Value Tuple Schema) (schema : Schema)
 (filterPredicate : Option (Expression Value))

def accepts (tuple : Tuple) : Bool :=
 match filterPredicate with
 | none => true
 | some predicate => engine.getAsBool (predicate.evaluate engine tuple schema)

/-- The state is what the table iterator has before it. -/
def next : TableHeap Tuple → Option ((Tuple × RID) × TableHeap Tuple)
 | [] => none
 | stored :: rest =>
  if stored.tupleMeta.isDeleted = false ∧ accepts engine schema filterPredicate stored.tuple then
   some ((stored.tuple, stored.rid), rest)
  else next rest

end SeqScanExecutor

namespace IndexScanExecutor

structure State where
 resultRids : List RID
 iter : List RID
 hasScan : Bool

variable {heap : TableHeap Tuple}

/-- Every tuple comes with the first record id of the result. -/
def nextFrom (heap : TableHeap Tuple) (state : State) : List RID → Option ((Tuple × RID) × State)
 | [] => none
 | rid :: rest =>
  match heap.getTuple rid, state.resultRids with
  | some (tupleMeta, tuple), first :: _ =>
   if tupleMeta.isDeleted = false then some ((tuple, first), { state with iter := rest })
   else nextFrom heap state rest
  | _, _ => none

def next (heap : TableHeap Tuple) (state : State) : Option ((Tuple × RID) × State) :=
 if state.hasScan then none else nextFrom heap state state.iter

/-- `none` is a predicate key that is a null pointer. -/
def init [DecidableEq Key] (info : IndexInfo Value Tuple Key) (predKey : Option Value) :
 Option State :=
 predKey.map fun val =>
  let resultRids := info.index.scanKey (info.makeKey [val])
  ⟨resultRids, resultRids, false⟩

end IndexScanExecutor

namespace ScanPlan

/-! ### The rewrite; `none` is a failed cast -/

def constantVal : Expression Value → Option Value
 | .constantValue val => some val
 | _ => none

def optimizeSeqScan (table : Table Value Tuple Schema Key) (node : SeqScanPlanNode Value) :
 Option (ScanPlan Value Tuple) :=
 match node.filterPredicate with
 | some (.comparison .equal first second) =>
  if table.indexes.isEmpty then some (.seqScan node)
  else
   match first with
   | .columnValue _ columnIndex =>
    match table.indexes.find? fun info => info.keyAttrs = [columnIndex] with
    | some info =>
     some (.indexScan ⟨node.tableOid, info.indexOid, node.filterPredicate,
      constantVal second⟩)
    | none => some (.seqScan node)
   | _ => none
 | _ => some (.seqScan node)

variable (catalog : ℕ → Table Value Tuple Schema Key)

def optimizeSeqScanAsIndexScan : ScanPlan Value Tuple → Option (ScanPlan Value Tuple)
 | seqScan node => optimizeSeqScan (catalog node.tableOid) node
 | indexScan node => some (indexScan node)
 | values result => some (values result)
 | unary operator child =>
  (optimizeSeqScanAsIndexScan child).map fun child => unary operator child
 | binary operator left right =>
  (optimizeSeqScanAsIndexScan left).bind fun left =>
   (optimizeSeqScanAsIndexScan right).map fun right => binary operator left right

inductive Executes [DecidableEq Key] (engine : Engine Value Tuple Schema) :
 ScanPlan Value Tuple → List (Tuple × RID) → Prop
 | seqScan {node : SeqScanPlanNode Value} {result : List (Tuple × RID)}
  (emits : Emits (SeqScanExecutor.next engine (catalog node.tableOid).schema
   node.filterPredicate) (catalog node.tableOid).heap result) :
  Executes engine (.seqScan node) result
 | indexScan {node : IndexScanPlanNode Value} {info : IndexInfo Value Tuple Key}
  {state : IndexScanExecutor.State} {result : List (Tuple × RID)}
  (found : (catalog node.tableOid).indexes.find? (fun info => info.indexOid = node.indexOid) =
   some info)
  (started : IndexScanExecutor.init info node.predKey = some state)
  (emits : Emits (IndexScanExecutor.next (catalog node.tableOid).heap) state result) :
  Executes engine (.indexScan node) result
 | values (result : List (Tuple × RID)) : Executes engine (.values result) result
 | unary (operator : List (Tuple × RID) → List (Tuple × RID)) {child : ScanPlan Value Tuple}
  {result : List (Tuple × RID)} (below : Executes engine child result) :
  Executes engine (.unary operator child) (operator result)
 | binary (operator : List (Tuple × RID) → List (Tuple × RID) → List (Tuple × RID))
  {left right : ScanPlan Value Tuple} {lefts rights : List (Tuple × RID)}
  (first : Executes engine left lefts) (second : Executes engine right rights) :
  Executes engine (.binary operator left right) (operator lefts rights)

end ScanPlan

/-! ### What the executors emit -/

namespace SeqScanExecutor

variable (engine : Engine Value Tuple Schema) (schema : Schema)
 (filterPredicate : Option (Expression Value))

def rows (heap : TableHeap Tuple) : List (Tuple × RID) :=
 (heap.filter fun stored => stored.tupleMeta.isDeleted = false ∧
  accepts engine schema filterPredicate stored.tuple).map fun stored => (stored.tuple, stored.rid)

variable {engine schema filterPredicate}

theorem emits_rows (heap : TableHeap Tuple) :
 Emits (next engine schema filterPredicate) heap (rows engine schema filterPredicate heap) := by
 induction heap with
 | nil => exact .done rfl
 | cons stored rest ih =>
  unfold rows
  by_cases kept : stored.tupleMeta.isDeleted = false ∧
   accepts engine schema filterPredicate stored.tuple
  · rw [filter_cons, if_pos (decide_eq_true kept)]
    exact .more (if_pos kept) ih
  · rw [filter_cons, if_neg (by simpa using kept)]
    exact ih.congr (if_neg kept)

theorem nodup_rows {heap : TableHeap Tuple} (nodup : heap.rids.Nodup) :
 (rows engine schema filterPredicate heap).Nodup := by
 apply List.Nodup.of_map Prod.snd
 unfold rows
 rw [map_map]
 exact nodup.sublist (filter_sublist.map _)

theorem mem_rows {heap : TableHeap Tuple} {tuple : Tuple} {rid : RID} :
 (tuple, rid) ∈ rows engine schema filterPredicate heap ↔
  heap.Live rid tuple ∧ accepts engine schema filterPredicate tuple = true := by
 unfold rows
 rw [mem_map]
 constructor
 · intro found
   obtain ⟨stored, member, same⟩ := found
   obtain ⟨inHeap, kept⟩ := mem_filter.mp member
   obtain ⟨undeleted, accepted⟩ := of_decide_eq_true kept
   cases same
   exact ⟨⟨stored, inHeap, rfl, rfl, undeleted⟩, accepted⟩
 · intro both
   obtain ⟨⟨stored, inHeap, sameRid, sameTuple, undeleted⟩, accepted⟩ := both
   grind

end SeqScanExecutor

/-- Indexes that are consistent with the table.  Two values that are not `NULL` make the
same key when they are equal. -/
structure Table.Consistent (engine : Engine Value Tuple Schema)
 (table : Table Value Tuple Schema Key) : Prop where
 rids : table.heap.rids.Nodup
 oids : (table.indexes.map IndexInfo.indexOid).Nodup
 keyFromTuple : ∀ info ∈ table.indexes, ∀ tuple, info.index.keyFromTuple tuple =
  info.makeKey (info.keyAttrs.map (engine.getValue tuple table.schema))
 represents : ∀ info ∈ table.indexes, info.index.Represents table.heap.Live
 keys : ∀ info ∈ table.indexes, ∀ value other, engine.compareEquals value other ≠ .cmpNull →
  (info.makeKey [value] = info.makeKey [other] ↔ engine.compareEquals value other = .cmpTrue)

namespace Table.Consistent

variable {engine : Engine Value Tuple Schema} {table : Table Value Tuple Schema Key}
 {info : IndexInfo Value Tuple Key}

theorem getIndex (consistent : table.Consistent engine) (member : info ∈ table.indexes) :
 table.indexes.find? (fun other => other.indexOid = info.indexOid) = some info := by
 cases search : table.indexes.find? (fun other => other.indexOid = info.indexOid) with
 | none => grind
 | some other =>
  have same : other.indexOid = info.indexOid := by simpa using find?_some search
  rw [inj_on_of_nodup_map consistent.oids (mem_of_find?_eq_some search) member same]

theorem emits_scanKey [DecidableEq Key] (consistent : table.Consistent engine)
 (member : info ∈ table.indexes) (key : Key) :
 ∃ rows, Emits (IndexScanExecutor.next table.heap)
  ⟨info.index.scanKey key, info.index.scanKey key, false⟩ rows ∧ rows.length ≤ 1 ∧
  ∀ tuple rid, (tuple, rid) ∈ rows ↔
   table.heap.Live rid tuple ∧ info.index.keyFromTuple tuple = key := by
 have represents := consistent.represents info member key
 unfold HashTableIndex.scanKey
 cases entry : info.index.entries key with
 | none =>
  refine ⟨[], .done rfl, Nat.zero_le _, ?_⟩
  intro tuple rid
  constructor
  · intro impossible
    cases impossible
  · intro both
    have stored := (represents rid).mpr ⟨tuple, both⟩
    rw [entry] at stored
    cases stored
 | some rid =>
  obtain ⟨tuple, live, own⟩ := (represents rid).mp entry
  obtain ⟨tupleMeta, found, undeleted⟩ := live.getTuple consistent.rids
  have pulled : IndexScanExecutor.next table.heap ⟨[rid], [rid], false⟩ =
   some ((tuple, rid), ⟨[rid], [], false⟩) := by
   change IndexScanExecutor.nextFrom table.heap ⟨[rid], [rid], false⟩ [rid] = _
   unfold IndexScanExecutor.nextFrom
   rw [found]
   exact if_pos undeleted
  refine ⟨[(tuple, rid)], .more pulled (.done rfl), Nat.le_refl _, ?_⟩
  intro otherTuple other
  rw [mem_singleton]
  constructor
  · simp_all
  · intro both
    have stored := (represents other).mpr ⟨otherTuple, both⟩
    rw [entry] at stored
    cases stored
    rw [both.1.unique consistent.rids live]

end Table.Consistent

/-! ### Scans that may be rewritten -/

namespace ScanPlan

variable [DecidableEq Key] (engine : Engine Value Tuple Schema)

/-- Where a comparison with the constant is `NULL`, the index finds a live tuple exactly when
the sequential scan lets `NULL` pass. -/
def NullsAgree (table : Table Value Tuple Schema Key) (info : IndexInfo Value Tuple Key)
 (columnIndex : ℕ) (val : Value) : Prop :=
 ∀ rid tuple, table.heap.Live rid tuple →
  engine.compareEquals (engine.getValue tuple table.schema columnIndex) val = .cmpNull →
   (info.makeKey [engine.getValue tuple table.schema columnIndex] = info.makeKey [val] ↔
    engine.passes .cmpNull = true)

/-- An equality on a table with indexes has a column first, and, when an index on that column
is chosen, a constant second. -/
def Fine (table : Table Value Tuple Schema Key) (node : SeqScanPlanNode Value) : Prop :=
 match node.filterPredicate with
 | some (.comparison .equal first second) =>
  table.indexes = [] ∨ ∃ tupleIdx columnIndex, first = .columnValue tupleIdx columnIndex ∧
   ∀ info, table.indexes.find? (fun info => info.keyAttrs = [columnIndex]) = some info →
    ∃ val, second = .constantValue val ∧ NullsAgree engine table info columnIndex val
 | _ => True

variable (catalog : ℕ → Table Value Tuple Schema Key)

/-- Both plans have results, with the same tuples and record ids. -/
def SameTuples (before after : ScanPlan Value Tuple) : Prop :=
 ∃ rows others, before.Executes catalog engine rows ∧ after.Executes catalog engine others ∧
  ∀ item, item ∈ others ↔ item ∈ rows

/-- What replaced a sequential scan has the same tuples. -/
inductive SameScans : ScanPlan Value Tuple → ScanPlan Value Tuple → Prop
 | seqScan {node : SeqScanPlanNode Value} {after : ScanPlan Value Tuple}
  (same : SameTuples engine catalog (.seqScan node) after) : SameScans (.seqScan node) after
 | indexScan (node : IndexScanPlanNode Value) : SameScans (.indexScan node) (.indexScan node)
 | values (result : List (Tuple × RID)) : SameScans (.values result) (.values result)
 | unary (operator : List (Tuple × RID) → List (Tuple × RID)) {child after : ScanPlan Value Tuple}
  (below : SameScans child after) : SameScans (.unary operator child) (.unary operator after)
 | binary (operator : List (Tuple × RID) → List (Tuple × RID) → List (Tuple × RID))
  {left right newLeft newRight : ScanPlan Value Tuple} (first : SameScans left newLeft)
  (second : SameScans right newRight) :
  SameScans (.binary operator left right) (.binary operator newLeft newRight)

/-- The condition on all sequential scans of a plan. -/
def AllFine : ScanPlan Value Tuple → Prop
 | seqScan node => Fine engine (catalog node.tableOid) node
 | indexScan _ => True
 | values _ => True
 | unary _ child => child.AllFine
 | binary _ left right => left.AllFine ∧ right.AllFine

variable {engine catalog}

theorem executes_seqScan (node : SeqScanPlanNode Value) :
 (seqScan node).Executes catalog engine (SeqScanExecutor.rows engine
  (catalog node.tableOid).schema node.filterPredicate (catalog node.tableOid).heap) :=
 .seqScan (SeqScanExecutor.emits_rows _)

theorem sameTuples_self (node : SeqScanPlanNode Value) :
 SameTuples engine catalog (.seqScan node) (.seqScan node) :=
 ⟨_, _, executes_seqScan node, executes_seqScan node, fun _ => Iff.rfl⟩

variable {node : SeqScanPlanNode Value} {result : List (Tuple × RID)}

theorem Executes.seqScan_rows (executes : (ScanPlan.seqScan node).Executes catalog engine result)
 {tuple : Tuple} {rid : RID} :
 (tuple, rid) ∈ result ↔ (catalog node.tableOid).heap.Live rid tuple ∧
  SeqScanExecutor.accepts engine (catalog node.tableOid).schema node.filterPredicate tuple := by
 cases executes with
 | seqScan emits =>
  rw [emits.unique (SeqScanExecutor.emits_rows _)]
  exact SeqScanExecutor.mem_rows

variable {info : IndexInfo Value Tuple Key}

theorem Executes.indexScan_rows {node : IndexScanPlanNode Value}
 (consistent : (catalog node.tableOid).Consistent engine)
 (member : info ∈ (catalog node.tableOid).indexes) (own : info.indexOid = node.indexOid)
 (executes : (ScanPlan.indexScan node).Executes catalog engine result) :
 ∃ val, node.predKey = some val ∧ result.length ≤ 1 ∧ ∀ tuple rid, (tuple, rid) ∈ result ↔
  (catalog node.tableOid).heap.Live rid tuple ∧
   info.index.keyFromTuple tuple = info.makeKey [val] := by
 cases executes with
 | indexScan found started emits =>
  rw [← own, consistent.getIndex member] at found
  cases found
  obtain ⟨val, given, same⟩ := Option.map_eq_some_iff.mp started
  subst same
  obtain ⟨rows, emitsRows, short, mem⟩ := consistent.emits_scanKey member (info.makeKey [val])
  rw [emits.unique emitsRows]
  exact ⟨val, given, short, mem⟩

theorem executes_indexScan {node : IndexScanPlanNode Value}
 (consistent : (catalog node.tableOid).Consistent engine)
 (member : info ∈ (catalog node.tableOid).indexes) (own : info.indexOid = node.indexOid)
 {val : Value} (given : node.predKey = some val) :
 ∃ result, (indexScan node).Executes catalog engine result := by
 obtain ⟨rows, emits, -⟩ := consistent.emits_scanKey member (info.makeKey [val])
 refine ⟨rows, .indexScan (own ▸ consistent.getIndex member) ?_ emits⟩
 rw [given]
 rfl

theorem constantVal_eq_some {expression : Expression Value} {val : Value} :
 constantVal expression = some val ↔ expression = .constantValue val := by
 constructor
 · intro constant
   cases expression with
   | constantValue other => rw [Option.some.inj constant]
   | columnValue _ _ => cases constant
   | comparison _ _ _ => cases constant
   | logic _ _ _ => cases constant
 · intro same
   rw [same]
   rfl

section

variable (lawful : engine.Lawful)
include lawful

omit [DecidableEq Key] in
theorem selections_agree {table : Table Value Tuple Schema Key}
 (consistent : table.Consistent engine) (member : info ∈ table.indexes) {columnIndex : ℕ}
 (attrs : info.keyAttrs = [columnIndex]) (tupleIdx : ℕ) (val : Value) :
 (∀ rid tuple, table.heap.Live rid tuple →
  (info.index.keyFromTuple tuple = info.makeKey [val] ↔
   SeqScanExecutor.accepts engine table.schema
    (some (.comparison .equal (.columnValue tupleIdx columnIndex) (.constantValue val)))
    tuple = true)) ↔ NullsAgree engine table info columnIndex val := by
 have key : ∀ tuple, info.index.keyFromTuple tuple =
  info.makeKey [engine.getValue tuple table.schema columnIndex] := by
  intro tuple
  rw [consistent.keyFromTuple info member, attrs]
  rfl
 have accepted : ∀ tuple, SeqScanExecutor.accepts engine table.schema
  (some (.comparison .equal (.columnValue tupleIdx columnIndex) (.constantValue val))) tuple =
   engine.passes (engine.compareEquals (engine.getValue tuple table.schema columnIndex) val) :=
  fun tuple => congrArg engine.getAsBool (lawful.comparison_equal _ _)
 constructor
 · intro agree rid tuple live null
   have both := agree rid tuple live
   rw [key, accepted, null] at both
   exact both
 · intro agree rid tuple live
   rw [key, accepted]
   cases compared : engine.compareEquals (engine.getValue tuple table.schema columnIndex) val with
   | cmpNull => exact agree rid tuple live compared
   | cmpTrue =>
    have same := (consistent.keys info member (engine.getValue tuple table.schema columnIndex)
     val (by rw [compared]; exact CmpBool.noConfusion)).mpr compared
    exact iff_of_true same lawful.getAsBool_true
   | cmpFalse =>
    refine iff_of_false ?_ ?_
    · intro same
      have equal := (consistent.keys info member
       (engine.getValue tuple table.schema columnIndex) val
       (by rw [compared]; exact CmpBool.noConfusion)).mp same
      rw [compared] at equal
      cases equal
    · unfold Engine.passes
      rw [lawful.getAsBool_false]
      exact Bool.false_ne_true

theorem sameTuples_indexScan (consistent : (catalog node.tableOid).Consistent engine)
 {tupleIdx columnIndex : ℕ} {second : Expression Value} (predicate : node.filterPredicate =
  some (.comparison .equal (.columnValue tupleIdx columnIndex) second))
 (member : info ∈ (catalog node.tableOid).indexes) (attrs : info.keyAttrs = [columnIndex]) :
 SameTuples engine catalog (.seqScan node)
  (.indexScan ⟨node.tableOid, info.indexOid, node.filterPredicate, constantVal second⟩) ↔
  ∃ val, second = .constantValue val ∧
   NullsAgree engine (catalog node.tableOid) info columnIndex val := by
 constructor
 · intro same
   obtain ⟨rows, others, executed, executedIndex, equal⟩ := same
   obtain ⟨val, given, -, found⟩ := executedIndex.indexScan_rows consistent member rfl
   have constant := constantVal_eq_some.mp given
   refine ⟨val, constant, ?_⟩
   rw [← selections_agree lawful consistent member attrs tupleIdx val]
   intro rid tuple live
   have both := equal (tuple, rid)
   rw [found, executed.seqScan_rows, predicate, constant] at both
   simp_all
 · intro constant
   obtain ⟨val, isConstant, agree⟩ := constant
   have given := constantVal_eq_some.mpr isConstant
   have started : ∃ others, (indexScan ⟨node.tableOid, info.indexOid, node.filterPredicate,
    constantVal second⟩).Executes catalog engine others :=
    executes_indexScan consistent member rfl given
   obtain ⟨others, executedIndex⟩ := started
   refine ⟨_, others, executes_seqScan node, executedIndex, ?_⟩
   obtain ⟨key, sameGiven, -, found⟩ := executedIndex.indexScan_rows consistent member rfl
   rw [given] at sameGiven
   cases sameGiven
   rw [← selections_agree lawful consistent member attrs tupleIdx val] at agree
   intro item
   rw [found, (executes_seqScan node).seqScan_rows, predicate, isConstant]
   constructor
   · grind
   · grind

theorem optimizeSeqScan_iff (consistent : (catalog node.tableOid).Consistent engine) :
 (∃ optimized, optimizeSeqScan (catalog node.tableOid) node = some optimized ∧
  SameTuples engine catalog (.seqScan node) optimized) ↔
   Fine engine (catalog node.tableOid) node := by
 have kept : optimizeSeqScan (catalog node.tableOid) node = some (.seqScan node) →
  ∃ optimized, optimizeSeqScan (catalog node.tableOid) node = some optimized ∧
   SameTuples engine catalog (.seqScan node) optimized :=
  fun same => ⟨_, same, sameTuples_self node⟩
 by_cases equality : ∃ first second, node.filterPredicate = some (.comparison .equal first second)
 · obtain ⟨first, second, predicate⟩ := equality
   unfold optimizeSeqScan at kept ⊢
   unfold Fine
   rw [predicate] at kept ⊢
   dsimp only at kept ⊢
   by_cases none : (catalog node.tableOid).indexes = []
   · simp_all
   · rw [if_neg (fun empty => none (isEmpty_iff.mp empty))] at kept ⊢
     by_cases column : ∃ tupleIdx columnIndex, first = .columnValue tupleIdx columnIndex
     · obtain ⟨tupleIdx, columnIndex, isColumn⟩ := column
       subst first
       cases search : (catalog node.tableOid).indexes.find?
        (fun info => info.keyAttrs = [columnIndex]) with
       | none =>
        grind
       | some info =>
        have attrs : info.keyAttrs = [columnIndex] := by simpa using find?_some search
        have same := sameTuples_indexScan lawful consistent predicate
         (mem_of_find?_eq_some search) attrs
        rw [predicate] at same
        constructor
        · simp_all
        · intro fine
          rcases fine with empty | ⟨otherIdx, otherColumn, isColumn, condition⟩
          · exact absurd empty none
          · simp_all
     · -- The cast to a reference throws.
       refine iff_of_false ?_ ?_
       · intro rewritten
         obtain ⟨optimized, chosen, -⟩ := rewritten
         split at chosen
         · exact column ⟨_, _, rfl⟩
         · cases chosen
       · intro fine
         rcases fine with empty | ⟨tupleIdx, columnIndex, isColumn, -⟩
         · exact none empty
         · simp_all
 · refine iff_of_true (kept ?_) ?_
   · unfold optimizeSeqScan
     split
     · simp_all
     · rfl
   · unfold Fine
     split
     · simp_all
     · trivial

theorem sameScans_iff (consistent : ∀ tableOid, (catalog tableOid).Consistent engine)
 (plan : ScanPlan Value Tuple) :
 (∃ optimized, plan.optimizeSeqScanAsIndexScan catalog = some optimized ∧
  SameScans engine catalog plan optimized) ↔ plan.AllFine engine catalog := by
 induction plan with
 | seqScan node =>
  refine Iff.trans ?_ (optimizeSeqScan_iff lawful (consistent node.tableOid))
  constructor
  · intro rewritten
    obtain ⟨optimized, found, scans⟩ := rewritten
    cases scans with
    | seqScan same => exact ⟨optimized, found, same⟩
  · intro rewritten
    obtain ⟨optimized, found, same⟩ := rewritten
    exact ⟨optimized, found, .seqScan same⟩
 | indexScan node => exact iff_of_true ⟨_, rfl, .indexScan node⟩ trivial
 | values result => exact iff_of_true ⟨_, rfl, .values result⟩ trivial
 | unary operator child ih =>
  refine Iff.trans ?_ ih
  constructor
  · intro rewritten
    obtain ⟨optimized, found, scans⟩ := rewritten
    obtain ⟨newChild, foundChild, isUnary⟩ := Option.map_eq_some_iff.mp found
    subst isUnary
    cases scans with
    | unary _ below => exact ⟨newChild, foundChild, below⟩
  · intro rewritten
    obtain ⟨newChild, found, below⟩ := rewritten
    exact ⟨_, Option.map_eq_some_iff.mpr ⟨newChild, found, rfl⟩, .unary operator below⟩
 | binary operator left right one two =>
  refine Iff.trans ?_ (and_congr one two)
  constructor
  · intro rewritten
    obtain ⟨optimized, found, scans⟩ := rewritten
    obtain ⟨newLeft, foundLeft, rest⟩ := Option.bind_eq_some_iff.mp found
    obtain ⟨newRight, foundRight, isBinary⟩ := Option.map_eq_some_iff.mp rest
    subst isBinary
    cases scans with
    | binary _ first second => simp_all
  · intro rewritten
    obtain ⟨⟨newLeft, foundLeft, first⟩, newRight, foundRight, second⟩ := rewritten
    refine ⟨_, Option.bind_eq_some_iff.mpr ⟨newLeft, foundLeft,
     Option.map_eq_some_iff.mpr ⟨newRight, foundRight, rfl⟩⟩, .binary operator first second⟩

end

/-! ### Whole plans -/

theorem eq_of_length_le_one {Item : Type} {items others : List Item} (nodup : items.Nodup)
 (short : others.length ≤ 1) (same : ∀ item, item ∈ others ↔ item ∈ items) :
 others = items := by
 cases others with
 | nil => exact (eq_nil_iff_forall_not_mem.mpr fun item member =>
  not_mem_nil ((same item).mpr member)).symm
 | cons first rest =>
  have alone : rest = [] := eq_nil_of_length_eq_zero (by
   rw [length_cons] at short
   omega)
  subst rest
  have perm := (perm_ext_iff_of_nodup (nodup_singleton first) nodup).mpr same
  exact (perm_singleton.mp perm.symm).symm

theorem executes_of_sameTuples {optimized : ScanPlan Value Tuple}
 (consistent : (catalog node.tableOid).Consistent engine)
 (rewritten : optimizeSeqScan (catalog node.tableOid) node = some optimized)
 (same : SameTuples engine catalog (.seqScan node) optimized)
 (executes : (seqScan node).Executes catalog engine result) :
 optimized.Executes catalog engine result := by
 have kept : optimized = .seqScan node ∨ ∃ info ∈ (catalog node.tableOid).indexes, ∃ predKey,
  optimized = .indexScan ⟨node.tableOid, info.indexOid, node.filterPredicate, predKey⟩ := by
  unfold optimizeSeqScan at rewritten
  split at rewritten
  · split at rewritten
    · exact .inl (Option.some.inj rewritten).symm
    · split at rewritten
      · split at rewritten
        · grind
        · exact .inl (Option.some.inj rewritten).symm
      · cases rewritten
  · exact .inl (Option.some.inj rewritten).symm
 rcases kept with unchanged | ⟨info, member, predKey, isIndex⟩
 · rw [unchanged]
   exact executes
 · subst optimized
   obtain ⟨rows, others, executed, executedIndex, equal⟩ := same
   obtain ⟨-, -, short, -⟩ := executedIndex.indexScan_rows consistent member rfl
   cases executes with
   | seqScan emits =>
    cases executed with
    | seqScan emitsRows =>
     have nodup : (SeqScanExecutor.rows engine (catalog node.tableOid).schema
      node.filterPredicate (catalog node.tableOid).heap).Nodup :=
      SeqScanExecutor.nodup_rows consistent.rids
     rw [emits.unique (SeqScanExecutor.emits_rows _)]
     rw [emitsRows.unique (SeqScanExecutor.emits_rows _)] at equal
     rw [← eq_of_length_le_one nodup short equal]
     exact executedIndex

theorem SameScans.executes (consistent : ∀ tableOid, (catalog tableOid).Consistent engine)
 {plan optimized : ScanPlan Value Tuple}
 (rewritten : plan.optimizeSeqScanAsIndexScan catalog = some optimized)
 (scans : SameScans engine catalog plan optimized)
 (executes : plan.Executes catalog engine result) :
 optimized.Executes catalog engine result := by
 induction scans generalizing result with
 | seqScan same => exact executes_of_sameTuples (consistent _) rewritten same executes
 | indexScan node => exact executes
 | values rows => exact executes
 | unary operator below ih =>
  obtain ⟨newChild, foundChild, isUnary⟩ := Option.map_eq_some_iff.mp rewritten
  cases isUnary
  cases executes with
  | unary _ executesChild => exact .unary operator (ih foundChild executesChild)
 | binary operator first second one two =>
  obtain ⟨newLeft, foundLeft, rest⟩ := Option.bind_eq_some_iff.mp rewritten
  obtain ⟨newRight, foundRight, isBinary⟩ := Option.map_eq_some_iff.mp rest
  cases isBinary
  cases executes with
  | binary _ left right => exact .binary operator (one foundLeft left) (two foundRight right)

/-- The rewrite succeeds, scans keep their tuples, and the whole plan keeps its result. -/
def Preserved (engine : Engine Value Tuple Schema) (catalog : ℕ → Table Value Tuple Schema Key)
 (plan : ScanPlan Value Tuple) : Prop :=
 ∃ optimized, plan.optimizeSeqScanAsIndexScan catalog = some optimized ∧
  SameScans engine catalog plan optimized ∧
  ∀ result, plan.Executes catalog engine result → optimized.Executes catalog engine result

/-- The optimizer preserves exactly the plans whose scans are all fine. -/
theorem optimizeSeqScanAsIndexScan_iff (lawful : engine.Lawful)
 (consistent : ∀ tableOid, (catalog tableOid).Consistent engine) (plan : ScanPlan Value Tuple) :
 plan.Preserved engine catalog ↔ plan.AllFine engine catalog := by
 rw [← sameScans_iff lawful consistent]
 constructor
 · intro preserved
   obtain ⟨optimized, found, scans, -⟩ := preserved
   exact ⟨optimized, found, scans⟩
 · intro rewritten
   obtain ⟨optimized, found, scans⟩ := rewritten
   exact ⟨optimized, found, scans, fun _ executes => scans.executes consistent found executes⟩

section Examples

/-- The key of row `5` was updated in place of a deleted tuple. -/
def rowsOfTable : TableHeap (List Datum) :=
 [⟨⟨0, 0⟩, ⟨0, true⟩, integers [5, 1]⟩, ⟨⟨0, 1⟩, ⟨0, false⟩, integers [5, 2]⟩,
  ⟨⟨0, 2⟩, ⟨0, false⟩, integers [6, 2]⟩]

def indexOnFirst : IndexInfo Datum (List Datum) (List Datum) where
 indexOid := 0
 keyAttrs := [0]
 makeKey values := values
 index :=
  { keyFromTuple := fun tuple => [wordEngine.getValue tuple [0, 1] 0]
    entries := fun key =>
     if key = integers [5] then some ⟨0, 1⟩
     else if key = integers [6] then some ⟨0, 2⟩ else none }

def tableOfRows : Table Datum (List Datum) (List ℕ) (List Datum) :=
 ⟨[0, 1], rowsOfTable, [indexOnFirst]⟩

theorem live_rowsOfTable {rid : RID} {tuple : List Datum} (live : rowsOfTable.Live rid tuple) :
 (rid = ⟨0, 1⟩ ∧ tuple = integers [5, 2]) ∨ (rid = ⟨0, 2⟩ ∧ tuple = integers [6, 2]) := by
 obtain ⟨stored, member, own, holds, undeleted⟩ := live
 subst own holds
 rcases mem_cons.mp member with first | later
 · rw [first] at undeleted
   cases undeleted
 · rcases mem_cons.mp later with second | third
   · rw [second]
     exact .inl ⟨rfl, rfl⟩
   · simp_all

theorem tableOfRows_consistent : tableOfRows.Consistent wordEngine where
 rids := by decide
 oids := by decide
 keyFromTuple info member tuple := by
  rw [mem_singleton.mp member]
  rfl
 represents info member key rid := by
  rw [mem_singleton.mp member]
  constructor
  · intro found
    change (if key = integers [5] then some ⟨0, 1⟩
     else if key = integers [6] then some ⟨0, 2⟩ else none) = some rid at found
    split at found
    · rename_i isFive
      cases found
      exact ⟨integers [5, 2], by decide, isFive.symm⟩
    · split at found
      · rename_i isSix
        cases found
        exact ⟨integers [6, 2], by decide, isSix.symm⟩
      · cases found
  · intro held
    obtain ⟨tuple, live, own⟩ := held
    subst own
    rcases live_rowsOfTable live with ⟨sameRid, sameTuple⟩ | ⟨sameRid, sameTuple⟩
    · rw [sameRid, sameTuple]
      rfl
    · rw [sameRid, sameTuple]
      rfl
 keys info member value other notNull := by
  rw [mem_singleton.mp member]
  cases value with
  | boolean _ => exact absurd rfl notNull
  | integer first =>
   cases first with
   | none => exact absurd rfl notNull
   | some one =>
    cases other with
    | boolean _ => exact absurd rfl notNull
    | integer second =>
     cases second with
     | none => exact absurd rfl notNull
     | some two =>
      change [Datum.integer (some one)] = [Datum.integer (some two)] ↔
       Datum.ofBool (decide (one = two)) = .cmpTrue
      by_cases same : one = two
      · simp [same, Datum.ofBool]
      · simp [same, Datum.ofBool]

def columnFirst : ScanPlan Datum (List Datum) :=
 .unary List.reverse (.seqScan ⟨0, some (.comparison .equal (.columnValue 0 0)
  (.constantValue (.integer (some 5))))⟩)

theorem optimizeSeqScanAsIndexScan_columnFirst :
 columnFirst.Preserved wordEngine fun _ => tableOfRows := by
 apply (optimizeSeqScanAsIndexScan_iff wordEngine_lawful
  (fun _ => tableOfRows_consistent) columnFirst).mpr
 refine Or.inr ⟨0, 0, rfl, ?_⟩
 intro info found
 cases found
 refine ⟨_, rfl, ?_⟩
 intro rid tuple live null
 rcases live_rowsOfTable live with ⟨-, row⟩ | ⟨-, row⟩
 · rw [row] at null
   exact absurd null (by decide)
 · rw [row] at null
   exact absurd null (by decide)

/-- With the constant first, the cast to `ColumnValueExpression` throws. -/
theorem optimizeSeqScanAsIndexScan_constantFirst :
 (∀ tableOid : ℕ, (fun _ => tableOfRows) tableOid |>.Consistent wordEngine) ∧
  ¬ (ScanPlan.seqScan ⟨0, some (.comparison .equal (.constantValue (.integer (some 5)))
   (.columnValue 0 0))⟩).Preserved wordEngine fun _ => tableOfRows := by
 refine ⟨fun _ => tableOfRows_consistent, ?_⟩
 intro preserved
 obtain ⟨optimized, found, -⟩ := preserved
 cases found

end Examples

end ScanPlan

end MyNotes.Cmu15445
