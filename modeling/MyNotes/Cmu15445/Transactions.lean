/-
Transactions of project 4: `Begin`, the writes of the executors, `Commit`, `Abort` and the
collector, in any order.

An update or a delete is one event for each tuple that it changes: the check for a conflict, which
`Init` makes, and the write in `Next` are one event, so that no other transaction comes between
them.  What the new log says of the columns is part of the event.  `Abort` only ends a transaction:
its tuples stay.
-/

import MyNotes.Cmu15445.GarbageCollection

namespace MyNotes.Cmu15445

open Function

/-- `TXN_START_ID`. -/
def txnStartId : ℕ := 4611686018427387904

/-- `GetTransactionTempTs`: the id of a transaction is its temporary timestamp. -/
def transactionTempTs (id : TxnId) : ℕ := id.toNat

/-- The transaction manager with the rest of its members. -/
structure Database (Value : Type) where
 manager : TransactionManager Value
 nextTxnId : ℕ
 lastCommitTs : ℕ
 currentReads : List ℕ
 readTs : TxnId → ℕ
 commitTs : TxnId → ℕ
 writeSet : TxnId → List RID

/-- What happens; `rid` of an insertion is the new slot of the table heap. -/
inductive TxnEvent (Value : Type) where
 | begin
 | insert (id : TxnId) (table : ℕ) (rid : RID)
 | modify (id : TxnId) (rid : RID) (isDeleted : Bool) (modifiedFields : List Bool)
  (tuple : List Value)
 | commit (id : TxnId)
 | abort (id : TxnId)
 | garbageCollection

variable {Value : Type}

namespace TransactionManager

section

variable (self : TransactionManager Value)

def heap : List (RID × TupleMeta) := self.tables.flatten

def getTupleMeta (rid : RID) : Option TupleMeta :=
 self.heap.lookup rid

/-- `UpdateTupleMeta` for some of the slots. -/
def updateTupleMetas (change : RID → TupleMeta → TupleMeta) : TransactionManager Value :=
 { self with
  tables := self.tables.map fun table => table.map fun tuple =>
   (tuple.1, change tuple.1 tuple.2) }

def updateTupleMeta (rid : RID) (tupleMeta : TupleMeta) : TransactionManager Value :=
 self.updateTupleMetas fun other old => if other = rid then tupleMeta else old

def updateUndoLink (rid : RID) (undoLink : Option UndoLink) : TransactionManager Value :=
 { self with versionInfo := update self.versionInfo rid undoLink }

def setTransaction (txn : Transaction Value) : TransactionManager Value :=
 { self with txnMap := update self.txnMap txn.txnId (some txn) }

end

end TransactionManager

namespace Database

open TransactionManager

/-- `GetWatermark`. -/
def getWatermark (self : Database Value) : ℕ := self.currentReads.min?.getD self.lastCommitTs

def refresh (self : Database Value) : Database Value :=
 { self with manager := { self.manager with watermark := self.getWatermark } }

def start (tableCount : ℕ) : Database Value :=
 { manager :=
    { txnMap := fun _ => none
      versionInfo := fun _ => none
      tables := List.replicate tableCount []
      watermark := 0 }
   nextTxnId := txnStartId
   lastCommitTs := 0
   currentReads := []
   readTs := fun _ => 0
   commitTs := fun _ => 0
   writeSet := fun _ => [] }

section

variable (self : Database Value)

def beginTxn : Database Value :=
 refresh { self with
  manager := self.manager.setTransaction ⟨self.nextTxnId, .running, []⟩
  nextTxnId := self.nextTxnId + 1
  currentReads := self.lastCommitTs :: self.currentReads
  readTs := update self.readTs self.nextTxnId self.lastCommitTs
  writeSet := update self.writeSet self.nextTxnId [] }

def appendWriteSet (id : TxnId) (rid : RID) : Database Value :=
 { self with writeSet := update self.writeSet id (rid :: self.writeSet id) }

def insertTuple (id : TxnId) (table : ℕ) (rid : RID) : Database Value :=
 appendWriteSet { self with
  manager := updateUndoLink { self.manager with
   tables := self.manager.tables.modify table
    (· ++ [(rid, ⟨transactionTempTs id, false⟩)]) } rid none } id rid

/-- Another running transaction has changed the tuple, or one that has committed since. -/
def writeWriteConflict (id : TxnId) (heapTupleTs : ℕ) : Bool :=
 (heapTupleTs ≥ txnStartId && heapTupleTs ≠ transactionTempTs id) ||
  (self.readTs id < heapTupleTs && heapTupleTs < txnStartId)

/-- One tuple of an update or a delete: a new log, or the log that the transaction has for
the tuple already; a tuple that it has inserted itself has none. -/
def modifyTuple (txn : Transaction Value) (rid : RID)
 (tupleMeta : TupleMeta) (isDeleted : Bool) (modifiedFields : List Bool) (tuple : List Value) :
 Database Value :=
 let undoLink := self.manager.getUndoLink rid
 let manager :=
  if tupleMeta.ts ≠ transactionTempTs txn.txnId then
   let undoLog : UndoLog Value :=
    ⟨tupleMeta.isDeleted, modifiedFields, tuple, tupleMeta.ts,
     undoLink.getD ⟨invalidTxnId, 0⟩⟩
   (self.manager.setTransaction
    { txn with undoLogs := txn.undoLogs ++ [undoLog] }).updateUndoLink rid
     (some ⟨txn.txnId, txn.undoLogs.length⟩)
  else
   match undoLink with
   | none => self.manager
   | some undoLink =>
    if undoLink.isValid then
     self.manager.setTransaction { txn with
      undoLogs := txn.undoLogs.modify undoLink.prevLogIdx fun undoLog =>
       { undoLog with modifiedFields := modifiedFields, tuple := tuple } }
    else self.manager
 appendWriteSet { self with
  manager := manager.updateTupleMeta rid ⟨transactionTempTs txn.txnId, isDeleted⟩ }
  txn.txnId rid

def finish (txn : Transaction Value) (state : TransactionState) : Database Value :=
 refresh { self with
  manager := self.manager.setTransaction { txn with state := state }
  currentReads := self.currentReads.erase (self.readTs txn.txnId) }

def commitTxn (txn : Transaction Value) : Database Value :=
 let commitTs := self.lastCommitTs + 1
 finish { self with
  manager := self.manager.updateTupleMetas fun rid tupleMeta =>
   if rid ∈ self.writeSet txn.txnId then { tupleMeta with ts := commitTs } else tupleMeta
  lastCommitTs := commitTs
  commitTs := update self.commitTs txn.txnId commitTs } txn .committed

/-- The timestamps of commits stay below `TXN_START_ID`. -/
def step : TxnEvent Value → Option (Database Value)
 | .begin => some self.beginTxn
 | .insert id table rid =>
  match self.manager.txnMap id with
  | some txn =>
   if txn.state = .running ∧ table < self.manager.tables.length ∧
    self.manager.getTupleMeta rid = none then
    some (self.insertTuple id table rid)
   else none
  | none => none
 | .modify id rid isDeleted modifiedFields tuple =>
  match self.manager.txnMap id, self.manager.getTupleMeta rid with
  | some txn, some tupleMeta =>
   if txn.state = .running then
    if self.writeWriteConflict id tupleMeta.ts then
     some { self with
      manager := self.manager.setTransaction { txn with state := .tainted } }
    else some (self.modifyTuple txn rid tupleMeta isDeleted modifiedFields tuple)
   else none
  | _, _ => none
 | .commit id =>
  match self.manager.txnMap id with
  | some txn =>
   if txn.state = .running ∧ self.lastCommitTs + 1 < txnStartId then
    some (self.commitTxn txn)
   else none
  | none => none
 | .abort id =>
  match self.manager.txnMap id with
  | some txn =>
   if txn.state = .running ∨ txn.state = .tainted then some (self.finish txn .aborted)
   else none
  | none => none
 | .garbageCollection =>
  self.manager.garbageCollection.map fun manager => { self with manager := manager }

end

end Database

end MyNotes.Cmu15445
