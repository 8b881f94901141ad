/-
Undo logs of project 4: `ReconstructTuple`, and the logs that an update leaves.

The tuple of a log holds the modified columns only, packed, with a schema of its own;
its schema is given by the modified fields, so it is not kept here.  The comparison
`CompareExactlyEquals` of two values is a parameter.
-/

import MyNotes.Library.PackedRow
import MyNotes.Cmu15445.BufferPool

namespace MyNotes.Cmu15445

open Library.PackedRow List Option

structure RID where
 pageId : PageId
 slotNum : ℕ
 deriving DecidableEq

structure Tuple (Value : Type) where
 rid : RID
 values : List Value

structure TupleMeta where
 ts : ℕ
 isDeleted : Bool
 deriving DecidableEq

abbrev TxnId := ℤ

def invalidTxnId : TxnId := -1

structure UndoLink where
 prevTxn : TxnId
 prevLogIdx : ℕ
 deriving DecidableEq

def UndoLink.isValid (self : UndoLink) : Bool := self.prevTxn ≠ invalidTxnId

structure UndoLog (Value : Type) where
 isDeleted : Bool
 modifiedFields : List Bool
 tuple : List Value
 ts : ℕ
 prevVersion : UndoLink

variable {Value : Type} [Inhabited Value]

def Tuple.getValue (self : Tuple Value) (columnIdx : ℕ) : Value :=
 self.values.getD columnIdx default

/-! ### Reconstruction -/

/-- The columns that a log has modified get its values. -/
def applyUndoLog (values : List Value) (undoLog : UndoLog Value) : List Value :=
 let cols := (List.range undoLog.modifiedFields.length).filter fun i =>
  undoLog.modifiedFields.getD i false
 (cols.zip undoLog.tuple).foldl (fun values entry => values.set entry.1 entry.2) values

def reconstructTuple (columnCount : ℕ) (baseTuple : Tuple Value) (baseMeta : TupleMeta)
 (undoLogs : List (UndoLog Value)) : Option (Tuple Value) :=
 let values := (List.range columnCount).map baseTuple.getValue
 let tuple : Tuple Value := ⟨baseTuple.rid, undoLogs.foldl applyUndoLog values⟩
 if (undoLogs.isEmpty && !baseMeta.isDeleted) ||
  undoLogs.getLast?.any fun undoLog => !undoLog.isDeleted
 then some tuple else none

/-! ### The log of an update -/

structure Fields (Value : Type) where
 modifiedFields : List Bool
 modifiedValues : List Value
 logTupleColumnId : ℕ

variable (compareExactlyEquals : Value → Value → Bool)

/-- One column of a new log: the old value, where it changes. -/
def newField (oldTuple newTuple : Tuple Value) (fields : Fields Value) (columnIdx : ℕ) :
 Fields Value :=
 if !compareExactlyEquals (oldTuple.getValue columnIdx) (newTuple.getValue columnIdx) then
  { fields with
   modifiedFields := fields.modifiedFields ++ [true]
   modifiedValues := fields.modifiedValues ++ [oldTuple.getValue columnIdx] }
 else { fields with modifiedFields := fields.modifiedFields ++ [false] }

/-- One column of a merged log: the value of the old log stays, and a column that
changes now comes in with its current value. -/
def mergeField (oldLog : UndoLog Value) (oldTuple newTuple : Tuple Value)
 (fields : Fields Value) (columnIdx : ℕ) : Fields Value :=
 if oldLog.modifiedFields.getD columnIdx false then
  { modifiedFields := fields.modifiedFields ++ [true]
    modifiedValues := fields.modifiedValues ++ [oldLog.tuple.getD fields.logTupleColumnId default]
    logTupleColumnId := fields.logTupleColumnId + 1 }
 else newField compareExactlyEquals oldTuple newTuple fields columnIdx

def generateNewUndoLog (columnCount : ℕ) (oldTuple newTuple : Tuple Value) (isDeleted : Bool)
 (ts : ℕ) (prevVersion : UndoLink) : UndoLog Value :=
 let fields := (List.range columnCount).foldl
  (newField compareExactlyEquals oldTuple newTuple) ⟨[], [], 0⟩
 { isDeleted := isDeleted
   modifiedFields := fields.modifiedFields
   tuple := fields.modifiedValues
   ts := ts
   prevVersion := prevVersion }

def generateUpdatedUndoLog (columnCount : ℕ) (oldLog : UndoLog Value)
 (oldTuple newTuple : Tuple Value) : UndoLog Value :=
 let fields := (List.range columnCount).foldl
  (mergeField compareExactlyEquals oldLog oldTuple newTuple) ⟨[], [], 0⟩
 { oldLog with
  modifiedFields := fields.modifiedFields
  tuple := fields.modifiedValues }

/-! ### What a log means -/

/-- A log in packed form for the columns whose older values it has. -/
structure Encodes (width : ℕ) (undoLog : UndoLog Value) (row : ℕ → Option Value) : Prop where
 modifiedFields : undoLog.modifiedFields = flags width row
 tuple : undoLog.tuple = packed width row

variable {row : ℕ → Option Value}

omit [Inhabited Value] in
theorem Encodes.apply {width : ℕ} {undoLog : UndoLog Value} (encodes : Encodes width undoLog row)
 {values : List Value} (wide : values.length = width) :
 applyUndoLog values undoLog = override row values := by
 unfold applyUndoLog
 dsimp only
 rw [encodes.modifiedFields, encodes.tuple, columns_zip, foldl_set_eq_override row wide]

/-- The columns that an update changes, with their values before it. -/
def changed (oldTuple newTuple : Tuple Value) (column : ℕ) : Option Value :=
 if !compareExactlyEquals (oldTuple.getValue column) (newTuple.getValue column) then
  some (oldTuple.getValue column)
 else none

variable {compareExactlyEquals}

theorem newField_spec {oldTuple newTuple : Tuple Value} {column : ℕ} {fields : Fields Value}
 (before : fields.modifiedFields = flags column row ∧
  fields.modifiedValues = packed column row)
 (own : row column = changed compareExactlyEquals oldTuple newTuple column) :
 let after := newField compareExactlyEquals oldTuple newTuple fields column
 after.modifiedFields = flags (column + 1) row ∧
  after.modifiedValues = packed (column + 1) row ∧
  after.logTupleColumnId = fields.logTupleColumnId := by
 rw [flags_succ, packed_succ, own, ← before.1, ← before.2]
 unfold newField changed
 split
 · exact ⟨rfl, rfl, rfl⟩
 · exact ⟨rfl, (append_nil _).symm, rfl⟩

theorem generateNewUndoLog_encodes (columnCount : ℕ) (oldTuple newTuple : Tuple Value)
 (isDeleted : Bool) (ts : ℕ) (prevVersion : UndoLink) :
 Encodes columnCount (generateNewUndoLog compareExactlyEquals columnCount oldTuple newTuple
  isDeleted ts prevVersion) (changed compareExactlyEquals oldTuple newTuple) := by
 have loop : ∀ column,
  let fields := (range column).foldl
   (newField compareExactlyEquals oldTuple newTuple) ⟨[], [], 0⟩
  fields.modifiedFields = flags column (changed compareExactlyEquals oldTuple newTuple) ∧
   fields.modifiedValues =
    packed column (changed compareExactlyEquals oldTuple newTuple) := by
  intro column
  induction column with
  | zero => exact ⟨rfl, rfl⟩
  | succ column ih =>
   rw [range_succ, foldl_append]
   have next := newField_spec ih rfl
   exact ⟨next.1, next.2.1⟩
 exact ⟨(loop columnCount).1, (loop columnCount).2⟩

theorem generateUpdatedUndoLog_encodes {columnCount : ℕ} {oldLog : UndoLog Value}
 (encodes : Encodes columnCount oldLog row) (oldTuple newTuple : Tuple Value) :
 Encodes columnCount
  (generateUpdatedUndoLog compareExactlyEquals columnCount oldLog oldTuple newTuple)
  fun column => (row column).or (changed compareExactlyEquals oldTuple newTuple column) := by
 have loop : ∀ column ≤ columnCount,
  let fields := (range column).foldl
   (mergeField compareExactlyEquals oldLog oldTuple newTuple) ⟨[], [], 0⟩
  let merged := fun column =>
   (row column).or (changed compareExactlyEquals oldTuple newTuple column)
  fields.modifiedFields = flags column merged ∧
   fields.modifiedValues = packed column merged ∧
   fields.logTupleColumnId = (packed column row).length := by
  intro column
  induction column with
  | zero =>
   intro _
   exact ⟨rfl, rfl, rfl⟩
  | succ column ih =>
   intro bound
   obtain ⟨modifiedFields, modifiedValues, counter⟩ := ih (by omega)
   dsimp only
   rw [range_succ, foldl_append, foldl_cons, foldl_nil]
   rw [mergeField, encodes.modifiedFields, flags_getD row (by omega)]
   cases found : row column with
   | some value =>
    have total : packed (column + 1) row = packed column row ++ [value] := by
     rw [packed_succ, found, toList_some]
    rw [isSome_some, if_pos rfl, flags_succ, packed_succ, modifiedFields,
     modifiedValues, counter, encodes.tuple, getD_eq_getElem?_getD,
     packed_rank (by omega) found, found, total, length_append]
    exact ⟨rfl, rfl, rfl⟩
   | none =>
    have own : (row column).or (changed compareExactlyEquals oldTuple newTuple column) =
     changed compareExactlyEquals oldTuple newTuple column := by
     rw [found, none_or]
    have next := newField_spec ⟨modifiedFields, modifiedValues⟩ own
    rw [isSome_none, if_neg Bool.false_ne_true]
    refine ⟨next.1, next.2.1, next.2.2.trans ?_⟩
    rw [counter, packed_succ, found, toList_none, append_nil]
 obtain ⟨modifiedFields, modifiedValues, -⟩ := loop columnCount (Nat.le_refl _)
 exact ⟨modifiedFields, modifiedValues⟩

/-! ### Updates of one transaction -/

/-- The tuples and the log of a transaction that updates a tuple once or more. -/
inductive Updated (compareExactlyEquals : Value → Value → Bool) (columnCount : ℕ)
 (oldest : Tuple Value) : Tuple Value → UndoLog Value → Prop
 | first (newTuple : Tuple Value) (isDeleted : Bool) (ts : ℕ) (prevVersion : UndoLink) :
  Updated compareExactlyEquals columnCount oldest newTuple
   (generateNewUndoLog compareExactlyEquals columnCount oldest newTuple isDeleted ts
    prevVersion)
 | again {oldTuple : Tuple Value} {oldLog : UndoLog Value} (newTuple : Tuple Value) :
  Updated compareExactlyEquals columnCount oldest oldTuple oldLog →
   Updated compareExactlyEquals columnCount oldest newTuple
    (generateUpdatedUndoLog compareExactlyEquals columnCount oldLog oldTuple newTuple)

/-- The versions behind a tuple, as the logs of its chain encode them. -/
inductive Versions (width : ℕ) : List Value → List (UndoLog Value) → List Value → Prop
 | nil (values : List Value) : Versions width values [] values
 | cons {newer oldest : List Value} {undoLog : UndoLog Value} {older : List (UndoLog Value)}
  {row : ℕ → Option Value} : Encodes width undoLog row →
  Versions width (override row newer) older oldest →
  Versions width newer (undoLog :: older) oldest

theorem Updated.encodes
 (exact : ∀ left right, compareExactlyEquals left right = true ↔ left = right)
 {columnCount : ℕ} {oldest newest : Tuple Value} {undoLog : UndoLog Value}
 (updated : Updated compareExactlyEquals columnCount oldest newest undoLog) :
 ∃ row, Encodes columnCount undoLog row ∧
  ∀ column, (row column).getD (newest.getValue column) = oldest.getValue column := by
 have back : ∀ (oldTuple newTuple : Tuple Value) column,
  (changed compareExactlyEquals oldTuple newTuple column).getD (newTuple.getValue column) =
   oldTuple.getValue column := by
  intro oldTuple newTuple column
  unfold changed
  split
  · rfl
  · simp_all
 induction updated with
 | first newTuple isDeleted ts prevVersion =>
  exact ⟨_, generateNewUndoLog_encodes columnCount oldest newTuple isDeleted ts prevVersion,
   back oldest newTuple⟩
 | @again oldTuple oldLog newTuple _ ih =>
  obtain ⟨row, encodes, leads⟩ := ih
  refine ⟨_, generateUpdatedUndoLog_encodes encodes oldTuple newTuple, ?_⟩
  intro column
  have earlier := leads column
  cases found : row column with
  | some value =>
   rw [found] at earlier
   exact earlier
  | none =>
   simp_all

omit [Inhabited Value] in
theorem Versions.apply {width : ℕ} {newer oldest : List Value} {older : List (UndoLog Value)}
 (versions : Versions width newer older oldest) (wide : newer.length = width) :
 older.foldl applyUndoLog newer = oldest := by
 induction versions with
 | nil values => rfl
 | cons encodes _ ih =>
  rw [foldl_cons, encodes.apply wide]
  exact ih ((override_length _ _).trans wide)

theorem getValue_row (tuple : Tuple Value) :
 (range tuple.values.length).map tuple.getValue = tuple.values := by
 apply ext_getElem?
 intro column
 by_cases inside : column < tuple.values.length
 · rw [getElem?_map, getElem?_range inside, getElem?_eq_getElem inside,
    map_some, Tuple.getValue, getD_eq_getElem?_getD, getElem?_eq_getElem inside,
    getD_some]
 · have outside := Nat.not_lt.mp inside
   rw [getElem?_eq_none (by simp_all),
    getElem?_eq_none outside]

/-- The log of a transaction leads back to the tuple before its first update, and the
logs behind it to the versions that they encode; the last log says whether it exists. -/
theorem reconstruct_updated
 (exact : ∀ left right, compareExactlyEquals left right = true ↔ left = right)
 {oldest newest : Tuple Value} {undoLog : UndoLog Value}
 (updated : Updated compareExactlyEquals oldest.values.length oldest newest undoLog)
 (baseMeta : TupleMeta) :
 reconstructTuple oldest.values.length newest baseMeta [undoLog] =
  (if undoLog.isDeleted then none else some ⟨newest.rid, oldest.values⟩) ∧
  ∀ older version, Versions oldest.values.length oldest.values older version →
   reconstructTuple oldest.values.length newest baseMeta (undoLog :: older) =
    if ((undoLog :: older).getLast (cons_ne_nil _ _)).isDeleted then none
    else some ⟨newest.rid, version⟩ := by
 obtain ⟨row, encodes, leads⟩ := updated.encodes exact
 have wide : ((List.range oldest.values.length).map newest.getValue).length =
  oldest.values.length := by
  rw [length_map, length_range]
 have back : override row ((List.range oldest.values.length).map newest.getValue) =
  oldest.values := by
  rw [override_map]
  exact (congrArg (List.map · _) (funext leads)).trans (getValue_row oldest)
 have chain : ∀ older version, Versions oldest.values.length oldest.values older version →
  reconstructTuple oldest.values.length newest baseMeta (undoLog :: older) =
   if ((undoLog :: older).getLast (cons_ne_nil _ _)).isDeleted then none
   else some ⟨newest.rid, version⟩ := by
  intro older version versions
  have start : Versions oldest.values.length
   (override row ((List.range oldest.values.length).map newest.getValue)) older version := by
   rw [back]
   exact versions
  have whole := (Versions.cons encodes start).apply wide
  unfold reconstructTuple
  dsimp only
  rw [whole, List.getLast?_eq_some_getLast (cons_ne_nil _ _), isEmpty_cons,
   Bool.false_and, Bool.false_or, any_some]
  cases ((undoLog :: older).getLast (cons_ne_nil _ _)).isDeleted <;> rfl
 exact ⟨chain [] _ (.nil _), chain⟩

theorem reconstruct_updated_twice :
 reconstructTuple 3 ⟨⟨1, 0⟩, [some 9, some 5, some 7]⟩ ⟨8, false⟩
  [generateUpdatedUndoLog (fun left right : Option ℕ => decide (left = right)) 3
   (generateNewUndoLog (fun left right => decide (left = right)) 3
    ⟨⟨1, 0⟩, [some 1, some 2, none]⟩ ⟨⟨1, 0⟩, [some 1, some 5, none]⟩ false 4 ⟨6, 0⟩)
   ⟨⟨1, 0⟩, [some 1, some 5, none]⟩ ⟨⟨1, 0⟩, [some 9, some 5, some 7]⟩,
   ⟨false, [true, true, true], [none, some 0, some 3], 2, ⟨invalidTxnId, 0⟩⟩] =
  some ⟨⟨1, 0⟩, [none, some 0, some 3]⟩ := by
 have older : Versions 3 [some 1, some 2, none]
  [⟨false, [true, true, true], [none, some 0, some 3], 2, ⟨invalidTxnId, 0⟩⟩]
  [none, some 0, some 3] :=
  @Versions.cons (Option ℕ) 3 _ _ _ _ (fun column => [none, some 0, some 3][column]?)
   ⟨rfl, rfl⟩ (.nil _)
 exact (reconstruct_updated (fun _ _ => decide_eq_true_iff)
  (.again ⟨⟨1, 0⟩, [some 9, some 5, some 7]⟩
   (.first ⟨⟨1, 0⟩, [some 1, some 5, none]⟩ false 4 ⟨6, 0⟩)) ⟨8, false⟩).2 _ _ older

end MyNotes.Cmu15445
