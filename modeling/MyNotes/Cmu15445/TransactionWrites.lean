/-
An update or a delete of a tuple.

The first one of a transaction puts a new log between the slot and the version that was behind
it; a later one changes only what that log says of the columns.
-/

import MyNotes.Cmu15445.TransactionEvents

namespace MyNotes.Cmu15445

open Function List

variable {Value : Type}

namespace Database

open TransactionManager

variable {db : Database Value} {rid : RID}

theorem Sound.ts_unique (sound : db.Sound) {ts otherTs : ℕ} (first : (rid, ts) ∈ db.manager.stamps)
 (second : (rid, otherTs) ∈ db.manager.stamps) : ts = otherTs :=
 (Prod.mk.inj (inj_on_of_nodup_map sound.rids first second rfl)).2

theorem mem_stamps_update {tupleMeta after : TupleMeta}
 (stored : (rid, tupleMeta.ts) ∈ db.manager.stamps) {slot : RID} {ts : ℕ} :
 (slot, ts) ∈ (db.manager.updateTupleMeta rid after).stamps ↔
  slot ≠ rid ∧ (slot, ts) ∈ db.manager.stamps ∨ slot = rid ∧ ts = after.ts := by
 have change : (db.manager.updateTupleMeta rid after).stamps =
  db.manager.stamps.map fun stamp => (stamp.1, if stamp.1 = rid then after.ts else stamp.2) :=
  stamps_updateTupleMetas _ (fun slot ts => if slot = rid then after.ts else ts)
   fun other old => by split <;> rfl
 rw [change, mem_map]
 constructor
 · intro found
   obtain ⟨stamp, before, same⟩ := found
   obtain ⟨isSlot, isTs⟩ := Prod.mk.inj same
   by_cases here : stamp.1 = rid
   · simp_all
   · grind
 · intro either
   rcases either with ⟨different, before⟩ | ⟨same, isTs⟩
   · exact ⟨(slot, ts), before, by rw [if_neg different]⟩
   · exact ⟨(rid, tupleMeta.ts), stored, by rw [if_pos rfl, same, isTs]⟩

variable {tupleMeta : TupleMeta} {txn : Transaction Value}

theorem Sound.modify_own (sound : db.Sound) (present : db.manager.txnMap txn.txnId = some txn)
 (running : txn.state = .running) (found : db.manager.getTupleMeta rid = some tupleMeta)
 (own : tupleMeta.ts = transactionTempTs txn.txnId) (isDeleted : Bool) (modifiedFields : List Bool)
 (tuple : List Value) :
 (db.modifyTuple txn rid tupleMeta isDeleted modifiedFields tuple).Sound := by
 have stored := mem_of_getTupleMeta found
 rw [own] at stored
 have isRunning : db.manager.stateOf txn.txnId = some .running := by
  rw [stateOf_of_some present, running]
 have active : txn.state ≠ .committed := by
  rw [running]
  exact fun same => by cases same
 have unmoved : ∀ manager : TransactionManager Value, manager.tables = db.manager.tables →
  (manager.updateTupleMeta rid ⟨transactionTempTs txn.txnId, isDeleted⟩).stamps =
   db.manager.stamps := by
  intro manager tables
  have same : manager.stamps = db.manager.stamps := by
   unfold TransactionManager.stamps heap
   rw [tables]
  have change :
   (manager.updateTupleMeta rid ⟨transactionTempTs txn.txnId, isDeleted⟩).stamps =
    manager.stamps.map fun stamp =>
     (stamp.1, if stamp.1 = rid then transactionTempTs txn.txnId else stamp.2) :=
   stamps_updateTupleMetas _
    (fun slot ts => if slot = rid then transactionTempTs txn.txnId else ts)
    fun other old => by split <;> rfl
  refine change.trans ?_
  rw [same]
  conv_rhs => rw [← map_id db.manager.stamps]
  apply map_congr_left
  intro stamp before
  by_cases here : stamp.1 = rid
  · have ts := sound.ts_unique stored (here ▸ before : (rid, stamp.2) ∈ db.manager.stamps)
    rw [if_pos here, ts]
    rfl
  · rw [if_neg here]
    rfl
 have writeSet : ∀ (manager : TransactionManager Value) id slot,
  slot ∈ (appendWriteSet { db with manager := manager } txn.txnId rid).writeSet id ↔
   slot ∈ db.writeSet id := by
  intro manager id slot
  refine mem_appendWriteSet.trans (or_iff_right_of_imp fun both => ?_)
  rw [both.1, both.2]
  exact (sound.writeSets txn.txnId rid isRunning).mpr stored
 have idle : db.manager.txnMap = (db.manager.setTransaction txn).txnMap :=
  (update_eq_self_iff.mpr present.symm).symm
 unfold modifyTuple
 dsimp only
 rw [if_neg fun different => different own]
 cases head : db.manager.getUndoLink rid with
 | none =>
  exact sound.changed txn present active active id rfl idle (unmoved _ rfl) rfl rfl rfl rfl rfl
   sound.reads sound.watermark (writeSet _)
 | some undoLink =>
  dsimp only
  split
  · refine sound.changed { txn with
     undoLogs := txn.undoLogs.modify undoLink.prevLogIdx fun undoLog =>
      { undoLog with modifiedFields := modifiedFields, tuple := tuple } } present active
     active id ?_ rfl (unmoved _ rfl) rfl rfl rfl rfl rfl sound.reads sound.watermark
     (writeSet _)
    apply ext_getElem?
    intro index
    rw [getElem?_map, getElem?_map, getElem?_modify]
    cases txn.undoLogs[index]? with
    | none => rfl
    | some undoLog =>
     by_cases here : undoLink.prevLogIdx = index
     · simp [here]
     · simp [here]
  · exact sound.changed txn present active active id rfl idle (unmoved _ rfl) rfl rfl rfl rfl
     rfl sound.reads sound.watermark (writeSet _)

/-- The link that a new log has to the version before it. -/
def prevOf (db : Database Value) (rid : RID) : UndoLink :=
 (db.manager.getUndoLink rid).getD ⟨invalidTxnId, 0⟩

/-- A tuple that the transaction writes for the first time. -/
structure FirstWrite (db : Database Value) (next : TransactionManager Value)
 (txn : Transaction Value) (rid : RID) (ts : ℕ) : Prop where
 shape : ∀ link, next.shape link =
  if link = ⟨txn.txnId, txn.undoLogs.length⟩ then some (ts, db.prevOf rid)
  else db.manager.shape link
 versionInfo : next.versionInfo =
  update db.manager.versionInfo rid (some ⟨txn.txnId, txn.undoLogs.length⟩)
 rids : next.stamps.map Prod.fst = db.manager.stamps.map Prod.fst
 stamps : ∀ slot other, (slot, other) ∈ next.stamps ↔
  slot ≠ rid ∧ (slot, other) ∈ db.manager.stamps ∨
   slot = rid ∧ other = transactionTempTs txn.txnId

theorem firstWrite_modifyTuple (present : db.manager.txnMap txn.txnId = some txn)
 (found : db.manager.getTupleMeta rid = some tupleMeta)
 (other : tupleMeta.ts ≠ transactionTempTs txn.txnId) (isDeleted : Bool)
 (modifiedFields : List Bool) (tuple : List Value) :
 FirstWrite db (db.modifyTuple txn rid tupleMeta isDeleted modifiedFields tuple).manager txn rid
  tupleMeta.ts := by
 unfold modifyTuple
 dsimp only
 rw [if_pos other]
 refine ⟨fun link => ?_, rfl, ?_, fun slot ts => ?_⟩
 · change ((update db.manager.txnMap txn.txnId _ link.prevTxn).bind _).map _ = _
   by_cases own : link.prevTxn = txn.txnId
   · rw [own, update_self, Option.bind_some]
     have before : db.manager.shape link =
      (txn.undoLogs[link.prevLogIdx]?).map fun undoLog =>
       (undoLog.ts, undoLog.prevVersion) := by
      rw [shape, getUndoLogOptional, own, present, Option.bind_some]
     rw [before]
     by_cases new : link.prevLogIdx = txn.undoLogs.length
     · rw [new, getElem?_concat_length, if_pos]
       · rfl
       · cases link
         cases own
         cases new
         rfl
     · rw [if_neg fun same => new (by rw [same])]
       by_cases early : link.prevLogIdx < txn.undoLogs.length
       · rw [getElem?_append_left early]
       · rw [getElem?_eq_none (by grind),
          getElem?_eq_none (by omega)]
   · rw [update_of_ne own, if_neg fun same => own (by rw [same])]
     rfl
 · exact (stamps_fst_updateTupleMetas _).trans rfl
 · exact @mem_stamps_update _ db rid tupleMeta ⟨transactionTempTs txn.txnId, isDeleted⟩
    (mem_of_getTupleMeta found) slot ts

theorem FirstWrite.points {next : TransactionManager Value} {ts : ℕ}
 (write : FirstWrite db next txn rid ts)
 (unused : db.manager.shape ⟨txn.txnId, txn.undoLogs.length⟩ = none) {place : RID ⊕ UndoLink}
 {link : UndoLink} {linkTs : ℕ} :
 next.Points place link linkTs ↔
  (place = .inl rid ∧ link = ⟨txn.txnId, txn.undoLogs.length⟩ ∧
   linkTs = transactionTempTs txn.txnId) ∨
  (place = .inr ⟨txn.txnId, txn.undoLogs.length⟩ ∧ link = db.prevOf rid ∧ linkTs = ts) ∨
  (place ≠ .inl rid ∧ db.manager.Points place link linkTs) := by
 constructor
 · intro points
   cases points with
   | @head slot link linkTs stored linked =>
    rw [write.versionInfo] at linked
    rcases (write.stamps slot linkTs).mp stored with ⟨different, before⟩ | ⟨same, isTemp⟩
    · rw [update_of_ne different] at linked
      exact .inr (.inr ⟨fun same => different (Sum.inl.inj same), .head before linked⟩)
    · rw [same, update_self] at linked
      exact .inl ⟨by rw [same], (Option.some.inj linked).symm, isTemp⟩
   | @log own link linkTs found =>
    rw [write.shape] at found
    by_cases new : own = ⟨txn.txnId, txn.undoLogs.length⟩
    · rw [if_pos new] at found
      obtain ⟨isTs, isPrev⟩ := Prod.mk.inj (Option.some.inj found)
      exact .inr (.inl ⟨by rw [new], isPrev.symm, isTs.symm⟩)
    · rw [if_neg new] at found
      exact .inr (.inr ⟨Sum.inr_ne_inl, .log found⟩)
 · intro either
   rcases either with ⟨isPlace, isLink, isTs⟩ | ⟨isPlace, isLink, isTs⟩ | ⟨different, points⟩
   · subst isPlace isLink isTs
     refine .head ((write.stamps ..).mpr (.inr ⟨rfl, rfl⟩)) ?_
     rw [write.versionInfo, update_self]
   · subst isPlace isLink isTs
     refine .log ?_
     rw [write.shape, if_pos rfl]
   · cases points with
     | @head slot link linkTs stored linked =>
      have other : slot ≠ rid := fun same => different (by rw [same])
      refine .head ((write.stamps ..).mpr (.inl ⟨other, stored⟩)) ?_
      rw [write.versionInfo, update_of_ne other]
      exact linked
     | @log own link linkTs found =>
      refine .log ?_
      rw [write.shape, if_neg fun same => ?_]
      · exact found
      · simp_all

theorem head_of_prevOf {ts : ℕ} (stored : (rid, ts) ∈ db.manager.stamps)
 (valid : (db.prevOf rid).isValid = true) : db.manager.Points (.inl rid) (db.prevOf rid) ts := by
 unfold prevOf at valid ⊢
 cases head : db.manager.getUndoLink rid with
 | some link => exact .head stored head
 | none =>
  rw [head] at valid
  cases valid

/-- The first write of a running transaction, over a version that has committed. -/
structure Overwrite (db : Database Value) (next : TransactionManager Value)
 (txn : Transaction Value) (rid : RID) (ts : ℕ) : Prop where
 sound : db.Sound
 write : FirstWrite db next txn rid ts
 present : db.manager.txnMap txn.txnId = some txn
 running : txn.state = .running
 stored : (rid, ts) ∈ db.manager.stamps
 early : ts ≤ db.lastCommitTs
 state : ∀ id, next.stateOf id = db.manager.stateOf id

namespace Overwrite

variable {next : TransactionManager Value} {txn : Transaction Value} {rid : RID} {ts : ℕ}
 {place : RID ⊕ UndoLink} {link : UndoLink} {linkTs : ℕ}

variable (covers : Overwrite db next txn rid ts)
include covers

theorem isRunning : db.manager.stateOf txn.txnId = some .running := by
 rw [stateOf_of_some covers.present, covers.running]

theorem unused : db.manager.shape ⟨txn.txnId, txn.undoLogs.length⟩ = none := by
 unfold shape getUndoLogOptional
 rw [covers.present, Option.bind_some, List.getElem?_eq_none (Nat.le_refl _)]
 rfl

theorem ne_new (points : db.manager.Points place link linkTs) :
 link ≠ ⟨txn.txnId, txn.undoLogs.length⟩ := by
 intro same
 have isSome := covers.sound.within place link linkTs points (by rw [same, covers.isRunning]; rfl)
 rw [same, covers.unused] at isSome
 cases isSome

theorem head (known : (db.manager.stateOf (db.prevOf rid).prevTxn).isSome = true) :
 db.manager.Points (.inl rid) (db.prevOf rid) ts := by
 obtain ⟨entry, here⟩ := exists_of_isSome_stateOf known
 exact head_of_prevOf covers.stored (isValid_of_started (covers.sound.keyed _ entry here).2.1)

theorem prevOf_ne_new : db.prevOf rid ≠ ⟨txn.txnId, txn.undoLogs.length⟩ := by
 intro isNew
 exact covers.ne_new (covers.head (by rw [isNew, covers.isRunning]; rfl)) isNew

theorem shape_old (old : link ≠ ⟨txn.txnId, txn.undoLogs.length⟩) :
 next.shape link = db.manager.shape link := by
 rw [covers.write.shape, if_neg old]

theorem points : next.Points place link linkTs ↔
 (place = .inl rid ∧ link = ⟨txn.txnId, txn.undoLogs.length⟩ ∧
  linkTs = transactionTempTs txn.txnId) ∨
 (place = .inr ⟨txn.txnId, txn.undoLogs.length⟩ ∧ link = db.prevOf rid ∧ linkTs = ts) ∨
 (place ≠ .inl rid ∧ db.manager.Points place link linkTs) :=
 covers.write.points covers.unused

section

variable (pointed : next.Points place link linkTs)
include pointed

theorem begun (valid : link.isValid = true) : link.prevTxn < db.nextTxnId := by
 rcases covers.points.mp pointed with ⟨-, isLink, -⟩ | ⟨-, isLink, -⟩ | ⟨-, before⟩
 · rw [isLink]
   exact (covers.sound.keyed _ txn covers.present).2.2
 · rw [isLink] at valid ⊢
   exact covers.sound.begun _ _ _ (head_of_prevOf covers.stored valid) valid
 · exact covers.sound.begun place link linkTs before valid

theorem within (known : (next.stateOf link.prevTxn).isSome = true) :
 (next.shape link).isSome = true := by
 rw [covers.state] at known
 rcases covers.points.mp pointed with ⟨-, isLink, -⟩ | ⟨-, isLink, -⟩ | ⟨-, before⟩
 · rw [covers.write.shape, if_pos isLink]
   rfl
 · rw [isLink] at known ⊢
   rw [covers.shape_old covers.prevOf_ne_new]
   exact covers.sound.within _ _ _ (covers.head known) known
 · rw [covers.shape_old (covers.ne_new before)]
   exact covers.sound.within place link linkTs before known

theorem stamped {behind : ℕ × UndoLink} (found : next.shape link = some behind) :
 behind.1 < linkTs ∧ db.stampOf link.prevTxn = linkTs := by
 rcases covers.points.mp pointed with ⟨-, isLink, isTs⟩ | ⟨-, isLink, isTs⟩ | ⟨-, before⟩
 · rw [covers.write.shape, if_pos isLink] at found
   cases found
   rw [isTs, isLink]
   refine ⟨covers.early.trans_lt (covers.sound.lastCommitTs_lt covers.isRunning), ?_⟩
   rw [stampOf, covers.isRunning, if_neg fun same => by cases same]
 · rw [isLink] at found ⊢
   rw [covers.shape_old covers.prevOf_ne_new] at found
   rw [isTs]
   exact covers.sound.stamped _ _ _ behind (covers.head (isSome_stateOf_of_shape found)) found
 · rw [covers.shape_old (covers.ne_new before)] at found
   exact covers.sound.stamped place link linkTs behind before found

end

theorem unique_prev (isSome : (db.manager.shape (db.prevOf rid)).isSome = true)
 (before : db.manager.Points place (db.prevOf rid) linkTs) : place = .inl rid := by
 obtain ⟨behind, isBehind⟩ := Option.isSome_iff_exists.mp isSome
 have first := covers.head (isSome_stateOf_of_shape isBehind)
 exact covers.sound.unique _ _ _ _ _ before first isSome

theorem unique {second : RID ⊕ UndoLink} {secondTs : ℕ} (pointed : next.Points place link linkTs)
 (again : next.Points second link secondTs) (isSome : (next.shape link).isSome = true) :
 place = second := by
 rcases covers.points.mp pointed with ⟨isPlace, isLink, -⟩ | ⟨isPlace, isLink, -⟩ | ⟨apart, before⟩
 · rcases covers.points.mp again with ⟨isSecond, -⟩ | ⟨-, isPrev, -⟩ | ⟨-, before⟩
   · rw [isPlace, isSecond]
   · exact absurd (isPrev.symm.trans isLink) covers.prevOf_ne_new
   · exact absurd isLink (covers.ne_new before)
 · subst isPlace isLink
   rw [covers.shape_old covers.prevOf_ne_new] at isSome
   rcases covers.points.mp again with ⟨-, isNew, -⟩ | ⟨isSecond, -⟩ | ⟨apart, before⟩
   · exact absurd isNew covers.prevOf_ne_new
   · exact isSecond.symm
   · exact absurd (covers.unique_prev isSome before) apart
 · rw [covers.shape_old (covers.ne_new before)] at isSome
   rcases covers.points.mp again with ⟨-, isNew, -⟩ | ⟨-, isPrev, -⟩ | ⟨-, secondBefore⟩
   · exact absurd isNew (covers.ne_new before)
   · subst isPrev
     exact absurd (covers.unique_prev isSome before) apart
   · exact covers.sound.unique _ _ _ _ _ before secondBefore isSome

theorem reached (isSome : (next.shape link).isSome = true) :
 ∃ place linkTs, next.Points place link linkTs := by
 by_cases new : link = ⟨txn.txnId, txn.undoLogs.length⟩
 · exact ⟨.inl rid, _, covers.points.mpr (.inl ⟨rfl, new, rfl⟩)⟩
 · rw [covers.shape_old new] at isSome
   obtain ⟨place, linkTs, before⟩ := covers.sound.reached link isSome
   by_cases here : place = .inl rid
   · refine ⟨.inr ⟨txn.txnId, txn.undoLogs.length⟩, _,
      covers.points.mpr (.inr (.inl ⟨rfl, ?_, rfl⟩))⟩
     subst here
     cases before with
     | head _ linked =>
      unfold prevOf getUndoLink
      rw [linked]
      rfl
   · exact ⟨place, linkTs, covers.points.mpr (.inr (.inr ⟨here, before⟩))⟩

theorem logs {behind : ℕ × UndoLink} (found : next.shape link = some behind) :
 behind.1 ≤ db.lastCommitTs := by
 by_cases new : link = ⟨txn.txnId, txn.undoLogs.length⟩
 · rw [covers.write.shape, if_pos new] at found
   cases found
   exact covers.early
 · rw [covers.shape_old new] at found
   exact covers.sound.logs link behind found

theorem writeSets {id : TxnId} {slot : RID} (now : next.stateOf id = some .running) :
 (id = txn.txnId ∧ slot = rid ∨ slot ∈ db.writeSet id) ↔
  (slot, transactionTempTs id) ∈ next.stamps := by
 rw [covers.state] at now
 rw [covers.write.stamps, covers.sound.writeSets id slot now]
 constructor
 · intro either
   rcases either with ⟨isOwn, isSlot⟩ | before
   · exact .inr ⟨isSlot, by rw [isOwn]⟩
   · refine .inl ⟨fun isSlot => ?_, before⟩
     rw [isSlot] at before
     have sameTs := covers.sound.ts_unique covers.stored before
     have later := covers.sound.lastCommitTs_lt now
     have early := covers.early
     omega
 · intro either
   rcases either with ⟨-, before⟩ | ⟨isSlot, isTemp⟩
   · exact .inr before
   · have isOwn := covers.sound.temp_injective covers.isRunning (covers.sound.started now) isTemp
     exact .inl ⟨isOwn, isSlot⟩

theorem owned {id : TxnId} {slot : RID} (now : next.stateOf id = some .running)
 (isStored : (slot, transactionTempTs id) ∈ next.stamps)
 (linked : next.versionInfo slot = some link) (valid : link.isValid = true) :
 link.prevTxn = id := by
 rw [covers.state] at now
 rw [covers.write.versionInfo] at linked
 rcases (covers.write.stamps ..).mp isStored with ⟨apart, before⟩ | ⟨isSlot, isTemp⟩
 · rw [update_of_ne apart] at linked
   exact covers.sound.owned id slot link now before linked valid
 · rw [isSlot, update_self] at linked
   cases linked
   exact (covers.sound.temp_injective covers.isRunning (covers.sound.started now) isTemp).symm

theorem stampOf_appendWriteSet (id : TxnId) :
 (appendWriteSet { db with manager := next } txn.txnId rid).stampOf id = db.stampOf id := by
 unfold stampOf
 rw [show (appendWriteSet { db with manager := next } txn.txnId rid).manager.stateOf id =
  db.manager.stateOf id from covers.state id]
 rfl

theorem sound_appendWriteSet {written : Transaction Value} (same : written.txnId = txn.txnId)
 (txnMap : next.txnMap = update db.manager.txnMap txn.txnId (some written))
 (watermark : next.watermark = db.manager.watermark) :
 (appendWriteSet { db with manager := next } txn.txnId rid).Sound := by
 have keyed := covers.sound.keyed _ txn covers.present
 exact
  { keyed := fun id entry now => by
     change next.txnMap id = some entry at now
     rw [txnMap] at now
     exact covers.sound.keyed_update covers.present now same
    next := covers.sound.next
    bound := covers.sound.bound
    reads := covers.sound.reads
    readTs := covers.sound.readTs
    watermark := watermark.le.trans covers.sound.watermark
    commits := fun id committed =>
     covers.sound.commits id ((covers.state id).symm.trans committed)
    rids := covers.write.rids ▸ covers.sound.rids
    begun := fun _ _ _ => covers.begun
    within := fun _ _ _ => covers.within
    stamped := fun place link linkTs behind pointed found => by
     rw [covers.stampOf_appendWriteSet]
     exact covers.stamped pointed found
    unique := fun _ _ _ _ _ => covers.unique
    reached := fun _ => covers.reached
    logs := fun _ _ => covers.logs
    written := fun slot linkTs isStored => by
     rcases (covers.write.stamps ..).mp isStored with ⟨-, before⟩ | ⟨-, isTemp⟩
     · exact covers.sound.written slot linkTs before
     · exact .inr ⟨txn.txnId, keyed.2.1, keyed.2.2, isTemp⟩
    writeSets := fun id slot now => mem_appendWriteSet.trans (covers.writeSets now)
    owned := fun _ _ _ => covers.owned }

end Overwrite

/-- What a write keeps of the transactions, and the slots that it leaves. -/
theorem modifyTuple_kept {txn : Transaction Value}
 (present : db.manager.txnMap txn.txnId = some txn) (rid : RID) (tupleMeta : TupleMeta)
 (isDeleted : Bool) (modifiedFields : List Bool) (tuple : List Value) :
 (db.modifyTuple txn rid tupleMeta isDeleted modifiedFields tuple).manager.tables =
  (db.manager.updateTupleMeta rid ⟨transactionTempTs txn.txnId, isDeleted⟩).tables ∧
 (db.modifyTuple txn rid tupleMeta isDeleted modifiedFields tuple).manager.watermark =
  db.manager.watermark ∧
 ∀ id, (db.modifyTuple txn rid tupleMeta isDeleted modifiedFields tuple).manager.stateOf id =
  db.manager.stateOf id := by
 have state : ∀ undoLogs id, (db.manager.setTransaction
  { txn with undoLogs := undoLogs }).stateOf id = db.manager.stateOf id := by
  intro undoLogs id
  rw [stateOf_setTransaction]
  split
  · rename_i own
    rw [own, stateOf_of_some present]
  · rfl
 unfold modifyTuple
 split
 · exact ⟨rfl, rfl, state _⟩
 · cases db.manager.getUndoLink rid with
   | none => exact ⟨rfl, rfl, fun _ => rfl⟩
   | some link =>
    dsimp only
    split
    · exact ⟨rfl, rfl, state _⟩
    · exact ⟨rfl, rfl, fun _ => rfl⟩

theorem Sound.modify_new (sound : db.Sound) (present : db.manager.txnMap txn.txnId = some txn)
 (running : txn.state = .running) (found : db.manager.getTupleMeta rid = some tupleMeta)
 (other : tupleMeta.ts ≠ transactionTempTs txn.txnId) (early : tupleMeta.ts ≤ db.lastCommitTs)
 (isDeleted : Bool) (modifiedFields : List Bool) (tuple : List Value) :
 (db.modifyTuple txn rid tupleMeta isDeleted modifiedFields tuple).Sound := by
 have write := firstWrite_modifyTuple present found other isDeleted modifiedFields tuple
 have txnMap : (db.modifyTuple txn rid tupleMeta isDeleted modifiedFields tuple).manager.txnMap =
  update db.manager.txnMap txn.txnId (some { txn with undoLogs := txn.undoLogs ++
   [⟨tupleMeta.isDeleted, modifiedFields, tuple, tupleMeta.ts, db.prevOf rid⟩] }) := by
  unfold modifyTuple
  dsimp only
  rw [if_pos other]
  rfl
 obtain ⟨-, watermark, state⟩ :=
  modifyTuple_kept present rid tupleMeta isDeleted modifiedFields tuple
 have covers : Overwrite db
  (db.modifyTuple txn rid tupleMeta isDeleted modifiedFields tuple).manager txn rid
  tupleMeta.ts :=
  ⟨sound, write, present, running, mem_of_getTupleMeta found, early, state⟩
 exact covers.sound_appendWriteSet (by rfl) txnMap watermark

end Database

end MyNotes.Cmu15445
