/-
The events of a transaction that write no log: it begins, inserts a tuple, is tainted, or aborts.
-/

import MyNotes.Cmu15445.TransactionChains

namespace MyNotes.Cmu15445

open Function List

variable {Value : Type}

namespace Database

open TransactionManager

variable {db : Database Value}

/-! ### The other events -/

/-- Versions and logs are as before, and no transaction has committed. -/
structure Quiet (db next : Database Value) : Prop where
 points : ∀ place link ts, next.manager.Points place link ts ↔ db.manager.Points place link ts
 shape : ∀ link, next.manager.shape link = db.manager.shape link
 lastCommitTs : next.lastCommitTs = db.lastCommitTs
 commitTs : next.commitTs = db.commitTs
 nextTxnId : db.nextTxnId ≤ next.nextTxnId
 present : ∀ id : TxnId, id < db.nextTxnId → (next.manager.stateOf id).isSome = true →
  (db.manager.stateOf id).isSome = true
 committed : ∀ id, next.manager.stateOf id = some .committed ↔
  db.manager.stateOf id = some .committed

theorem Sound.quiet (sound : db.Sound) {next : Database Value} (quiet : Quiet db next)
 (keyed : ∀ id txn, next.manager.txnMap id = some txn →
  txn.txnId = id ∧ (txnStartId : ℤ) ≤ id ∧ id < next.nextTxnId)
 (reads : ∀ ts ∈ next.currentReads, ts ≤ db.lastCommitTs)
 (readTs : ∀ id, next.readTs id ≤ db.lastCommitTs)
 (watermark : next.manager.watermark ≤ db.lastCommitTs)
 (rids : (next.manager.stamps.map Prod.fst).Nodup)
 (written : ∀ rid ts, (rid, ts) ∈ next.manager.stamps → ts ≤ db.lastCommitTs ∨
  ∃ id : TxnId, (txnStartId : ℤ) ≤ id ∧ id < next.nextTxnId ∧ ts = transactionTempTs id)
 (writeSets : ∀ id rid, next.manager.stateOf id = some .running →
  (rid ∈ next.writeSet id ↔ (rid, transactionTempTs id) ∈ next.manager.stamps))
 (owned : ∀ id rid link, next.manager.stateOf id = some .running →
  (rid, transactionTempTs id) ∈ next.manager.stamps →
   next.manager.versionInfo rid = some link → link.isValid = true → link.prevTxn = id) :
 next.Sound := by
 refine
  { keyed := keyed
    next := sound.next.trans quiet.nextTxnId
    bound := quiet.lastCommitTs ▸ sound.bound
    reads := quiet.lastCommitTs ▸ reads
    readTs := quiet.lastCommitTs ▸ readTs
    watermark := quiet.lastCommitTs ▸ watermark
    commits := ?_
    rids := rids
    begun := ?_
    within := ?_
    stamped := ?_
    unique := ?_
    reached := ?_
    logs := ?_
    written := quiet.lastCommitTs ▸ written
    writeSets := writeSets
    owned := owned }
 · intro id committed
   rw [quiet.commitTs, quiet.lastCommitTs]
   exact sound.commits id ((quiet.committed id).mp committed)
 · intro place link ts points valid
   have bound := sound.begun place link ts ((quiet.points ..).mp points) valid
   exact Int.lt_of_lt_of_le bound (Int.ofNat_le.mpr quiet.nextTxnId)
 · intro place link ts points present
   rw [quiet.shape]
   have old := (quiet.points ..).mp points
   obtain ⟨txn, here⟩ := exists_of_isSome_stateOf present
   have valid := isValid_of_started (keyed _ txn here).2.1
   exact sound.within place link ts old
    (quiet.present _ (sound.begun place link ts old valid) present)
 · intro place link ts behind points found
   rw [quiet.shape] at found
   have stamped := sound.stamped place link ts behind ((quiet.points ..).mp points) found
   refine ⟨stamped.1, ?_⟩
   rw [← stamped.2]
   unfold stampOf
   simp only [quiet.committed, quiet.commitTs]
 · intro place other link ts otherTs first second found
   rw [quiet.shape] at found
   exact sound.unique place other link ts otherTs ((quiet.points ..).mp first)
    ((quiet.points ..).mp second) found
 · intro link found
   rw [quiet.shape] at found
   obtain ⟨place, ts, points⟩ := sound.reached link found
   exact ⟨place, ts, (quiet.points ..).mpr points⟩
 · intro link behind found
   rw [quiet.shape] at found
   rw [quiet.lastCommitTs]
   exact sound.logs link behind found

end Database

namespace TransactionManager

variable {manager : TransactionManager Value}

theorem stateOf_setTransaction (txn : Transaction Value) (id : TxnId) :
 (manager.setTransaction txn).stateOf id =
  if id = txn.txnId then some txn.state else manager.stateOf id := by
 unfold stateOf setTransaction
 by_cases same : id = txn.txnId
 · simp_all
 · simp_all

theorem shape_setTransaction {txn old : Transaction Value}
 (present : manager.txnMap txn.txnId = some old)
 (same : txn.undoLogs.map (fun undoLog => (undoLog.ts, undoLog.prevVersion)) =
  old.undoLogs.map fun undoLog => (undoLog.ts, undoLog.prevVersion)) (link : UndoLink) :
 (manager.setTransaction txn).shape link = manager.shape link := by
 unfold shape getUndoLogOptional setTransaction
 dsimp only
 by_cases own : link.prevTxn = txn.txnId
 · rw [own, update_self, present, Option.bind_some, Option.bind_some,
    ← getElem?_map, ← getElem?_map, same]
 · rw [update_of_ne own]

theorem points_congr {other : TransactionManager Value} (stamps : other.stamps = manager.stamps)
 (versionInfo : other.versionInfo = manager.versionInfo)
 (shape : ∀ link, other.shape link = manager.shape link) (place : RID ⊕ UndoLink)
 (link : UndoLink) (ts : ℕ) : other.Points place link ts ↔ manager.Points place link ts := by
 constructor
 · intro points
   cases points with
   | head stored linked => exact .head (stamps ▸ stored) (versionInfo ▸ linked)
   | log found => exact .log (shape _ ▸ found)
 · intro points
   cases points with
   | head stored linked => exact .head (stamps ▸ stored) (versionInfo ▸ linked)
   | log found => exact .log ((shape _).trans found)

end TransactionManager

namespace Database

open TransactionManager

variable {db : Database Value}

theorem getWatermark_le {reads : List ℕ} {last : ℕ} (bound : ∀ ts ∈ reads, ts ≤ last) :
 reads.min?.getD last ≤ last := by
 cases least : reads.min? with
 | none => exact Nat.le_refl _
 | some ts => exact bound ts (min?_mem least)

variable {id other : TxnId} {txn : Transaction Value}

section

variable (sound : db.Sound)
include sound

theorem Sound.keyed_update {old entry : Transaction Value}
 (present : db.manager.txnMap id = some old)
 (found : update db.manager.txnMap id (some txn) other = some entry) (same : txn.txnId = id) :
 entry.txnId = other ∧ (txnStartId : ℤ) ≤ other ∧ other < db.nextTxnId := by
 by_cases own : other = id
 · rw [own, update_self] at found
   cases found
   rw [own]
   exact ⟨same, (sound.keyed id old present).2⟩
 · rw [update_of_ne own] at found
   exact sound.keyed other entry found

theorem Sound.changed (txn : Transaction Value) {old : Transaction Value}
 (present : db.manager.txnMap txn.txnId = some old) (uncommitted : txn.state ≠ .committed)
 (wasUncommitted : old.state ≠ .committed) (running : txn.state = .running → old.state = .running)
 (same : txn.undoLogs.map (fun undoLog => (undoLog.ts, undoLog.prevVersion)) =
  old.undoLogs.map fun undoLog => (undoLog.ts, undoLog.prevVersion)) {next : Database Value}
 (manager : next.manager.txnMap = (db.manager.setTransaction txn).txnMap)
 (stamps : next.manager.stamps = db.manager.stamps)
 (versionInfo : next.manager.versionInfo = db.manager.versionInfo)
 (lastCommitTs : next.lastCommitTs = db.lastCommitTs) (commitTs : next.commitTs = db.commitTs)
 (nextTxnId : next.nextTxnId = db.nextTxnId) (readTs : next.readTs = db.readTs)
 (reads : ∀ ts ∈ next.currentReads, ts ≤ db.lastCommitTs)
 (watermark : next.manager.watermark ≤ db.lastCommitTs)
 (writeSet : ∀ id rid, rid ∈ next.writeSet id ↔ rid ∈ db.writeSet id) : next.Sound := by
 have state : ∀ id, next.manager.stateOf id =
  if id = txn.txnId then some txn.state else db.manager.stateOf id := by
  intro id
  rw [← stateOf_setTransaction, stateOf, manager]
  rfl
 have shape : ∀ link, next.manager.shape link = db.manager.shape link := by
  intro link
  rw [← shape_setTransaction present same, TransactionManager.shape, getUndoLogOptional, manager]
  rfl
 have stillRunning : ∀ id, next.manager.stateOf id = some .running →
  db.manager.stateOf id = some .running := by
  intro id found
  rw [state] at found
  by_cases own : id = txn.txnId
  · rw [if_pos own] at found
    rw [own, stateOf_of_some present, running (Option.some.inj found)]
  · rw [if_neg own] at found
    exact found
 refine sound.quiet ⟨points_congr stamps versionInfo shape, shape, lastCommitTs, commitTs,
  nextTxnId.ge, ?_, ?_⟩ ?_ reads (readTs ▸ sound.readTs) watermark (stamps ▸ sound.rids) ?_ ?_ ?_
 · intro id _ found
   rw [state] at found
   by_cases own : id = txn.txnId
   · rw [own, stateOf_of_some present]
     rfl
   · rw [if_neg own] at found
     exact found
 · intro id
   rw [state]
   by_cases own : id = txn.txnId
   · rw [if_pos own, own, stateOf_of_some present, Option.some_inj, Option.some_inj]
     exact iff_of_false uncommitted wasUncommitted
   · rw [if_neg own]
 · intro id other found
   rw [manager] at found
   rw [nextTxnId]
   exact sound.keyed_update present found rfl
 · rw [stamps, nextTxnId]
   exact sound.written
 · intro id rid found
   rw [writeSet, stamps]
   exact sound.writeSets id rid (stillRunning id found)
 · intro id rid link found stored linked
   exact sound.owned id rid link (stillRunning id found) (stamps ▸ stored) (versionInfo ▸ linked)

theorem Sound.finish_aborted (present : db.manager.txnMap txn.txnId = some txn)
 (active : txn.state ≠ .committed) : (db.finish txn .aborted).Sound := by
 have reads : ∀ ts ∈ db.currentReads.erase (db.readTs txn.txnId), ts ≤ db.lastCommitTs :=
  fun ts member => sound.reads ts (mem_of_mem_erase member)
 exact sound.changed { txn with state := .aborted } present (fun same => by cases same)
  active (fun same => by cases same) rfl rfl rfl rfl rfl rfl rfl rfl reads (getWatermark_le reads)
  fun _ _ => Iff.rfl

theorem Sound.taint (present : db.manager.txnMap txn.txnId = some txn)
 (active : txn.state ≠ .committed) :
 Sound { db with manager := db.manager.setTransaction { txn with state := .tainted } } :=
 sound.changed { txn with state := .tainted } present (fun same => by cases same) active
  (fun same => by cases same) rfl rfl rfl rfl rfl rfl rfl rfl sound.reads sound.watermark
  fun _ _ => Iff.rfl

theorem Sound.not_begun (new : (db.nextTxnId : ℤ) ≤ id) : db.manager.txnMap id = none := by
 cases found : db.manager.txnMap id with
 | none => rfl
 | some txn => exact absurd (sound.keyed id txn found).2.2 (Int.not_lt.mpr new)

theorem Sound.beginTxn : db.beginTxn.Sound := by
 have state : ∀ id, db.beginTxn.manager.stateOf id =
  if id = (db.nextTxnId : ℤ) then some .running else db.manager.stateOf id :=
  stateOf_setTransaction ⟨db.nextTxnId, .running, []⟩
 have absent := sound.not_begun (Int.le_refl _)
 have shape : ∀ link, db.beginTxn.manager.shape link = db.manager.shape link := by
  intro link
  unfold TransactionManager.shape getUndoLogOptional Database.beginTxn refresh setTransaction
  dsimp only
  by_cases own : link.prevTxn = (db.nextTxnId : ℤ)
  · rw [own, update_self, absent]
    rfl
  · rw [update_of_ne own]
 have old : ∀ id, db.beginTxn.manager.stateOf id = some .running → id ≠ (db.nextTxnId : ℤ) →
  db.manager.stateOf id = some .running := by
  intro id found different
  rw [state, if_neg different] at found
  exact found
 have unused : ∀ rid, (rid, transactionTempTs db.nextTxnId) ∉ db.manager.stamps := by
  intro rid stored
  have next := sound.next
  have bound := sound.bound
  rcases sound.written rid _ stored with early | ⟨id, started, before, same⟩
  · unfold transactionTempTs at early
    omega
  · unfold transactionTempTs at same
    have lower : 0 ≤ id := Int.le_trans (Int.natCast_nonneg _) started
    have upper : id.toNat < db.nextTxnId := (Int.toNat_lt lower).mpr before
    omega
 have reads : ∀ ts ∈ db.lastCommitTs :: db.currentReads, ts ≤ db.lastCommitTs := by
  intro ts member
  rcases mem_cons.mp member with isLast | earlier
  · exact isLast.le
  · exact sound.reads ts earlier
 refine sound.quiet ⟨points_congr rfl rfl shape, shape, rfl, rfl, Nat.le_succ _, ?_, ?_⟩ ?_
  reads ?_ (getWatermark_le reads) sound.rids ?_ ?_ ?_
 · grind
 · intro id
   rw [state]
   by_cases own : id = (db.nextTxnId : ℤ)
   · rw [if_pos own, stateOf, own, absent]
     exact iff_of_false (fun same => by cases same) (fun same => by cases same)
   · rw [if_neg own]
 · intro id txn found
   change update db.manager.txnMap _ _ id = some txn at found
   by_cases own : id = (db.nextTxnId : ℤ)
   · rw [own, update_self] at found
     cases found
     rw [own]
     exact ⟨rfl, Int.ofNat_le.mpr sound.next, Int.ofNat_lt.mpr (Nat.lt_succ_self _)⟩
   · rw [update_of_ne own] at found
     have keyed := sound.keyed id txn found
     exact ⟨keyed.1, keyed.2.1,
      Int.lt_of_lt_of_le keyed.2.2 (Int.ofNat_le.mpr (Nat.le_succ _))⟩
 · intro id
   change update db.readTs _ _ id ≤ _
   by_cases own : id = (db.nextTxnId : ℤ)
   · rw [own, update_self]
   · rw [update_of_ne own]
     exact sound.readTs id
 · intro rid ts stored
   rcases sound.written rid ts stored with early | ⟨id, started, before, same⟩
   · exact .inl early
   · exact .inr ⟨id, started,
      Int.lt_of_lt_of_le before (Int.ofNat_le.mpr (Nat.le_succ _)), same⟩
 · intro id rid found
   change rid ∈ update db.writeSet _ _ id ↔ _
   by_cases own : id = (db.nextTxnId : ℤ)
   · rw [own, update_self]
     exact iff_of_false not_mem_nil (unused rid)
   · rw [update_of_ne own]
     exact sound.writeSets id rid (old id found own)
 · intro id rid link found stored linked
   by_cases own : id = (db.nextTxnId : ℤ)
   · rw [own] at stored
     exact absurd stored (unused rid)
   · exact sound.owned id rid link (old id found own) stored linked

end

/-! ### Writes -/

variable {state : TransactionState}

theorem Sound.temp_injective (sound : db.Sound) (present : db.manager.stateOf id = some state)
 (started : (txnStartId : ℤ) ≤ other) (same : transactionTempTs other = transactionTempTs id) :
 other = id := by
 obtain ⟨txn, found, -⟩ := Option.map_eq_some_iff.mp present
 have low := (sound.keyed id txn found).2.1
 unfold transactionTempTs at same
 have zero : (0 : ℤ) ≤ txnStartId := Int.natCast_nonneg _
 have lower : 0 ≤ id := Int.le_trans zero low
 have otherLower : 0 ≤ other := Int.le_trans zero started
 grind

theorem Sound.started (sound : db.Sound) (present : db.manager.stateOf id = some state) :
 (txnStartId : ℤ) ≤ id := by
 obtain ⟨txn, found, -⟩ := Option.map_eq_some_iff.mp present
 exact (sound.keyed id txn found).2.1

theorem Sound.lastCommitTs_lt (sound : db.Sound) (present : db.manager.stateOf id = some state) :
 db.lastCommitTs < transactionTempTs id := by
 obtain ⟨txn, found, -⟩ := Option.map_eq_some_iff.mp present
 have low := (sound.keyed id txn found).2.1
 have bound := sound.bound
 unfold transactionTempTs
 omega

theorem mem_appendWriteSet {self : Database Value} {rid slot : RID} :
 slot ∈ (self.appendWriteSet id rid).writeSet other ↔
  (other = id ∧ slot = rid) ∨ slot ∈ self.writeSet other := by
 unfold appendWriteSet
 dsimp only
 by_cases own : other = id
 · rw [own, update_self, mem_cons]
   simp
 · rw [update_of_ne own]
   simp [own]

end Database

namespace TransactionManager

variable {manager : TransactionManager Value}

theorem flatten_modify_perm {α : Type} (tables : List (List α)) (item : α) {index : ℕ}
 (inside : index < tables.length) :
 (tables.modify index (· ++ [item])).flatten.Perm (item :: tables.flatten) := by
 induction tables generalizing index with
 | nil => exact absurd inside (Nat.not_lt_zero _)
 | cons table rest ih =>
  cases index with
  | zero =>
   simp
  | succ index =>
   rw [modify_succ_cons, flatten_cons, flatten_cons]
   exact ((ih (Nat.lt_of_succ_lt_succ inside)).append_left table).trans perm_middle

theorem stamps_updateTupleMetas (change : RID → TupleMeta → TupleMeta) (after : RID → ℕ → ℕ)
 (ts : ∀ rid tupleMeta, (change rid tupleMeta).ts = after rid tupleMeta.ts) :
 (manager.updateTupleMetas change).stamps =
  manager.stamps.map fun stamp => (stamp.1, after stamp.1 stamp.2) := by
 unfold stamps heap updateTupleMetas
 rw [← map_flatten, map_map, map_map]
 apply map_congr_left
 simp_all

theorem stamps_fst_updateTupleMetas (change : RID → TupleMeta → TupleMeta) :
 (manager.updateTupleMetas change).stamps.map Prod.fst = manager.stamps.map Prod.fst := by
 unfold stamps heap updateTupleMetas
 rw [← map_flatten, map_map, map_map, map_map]
 rfl

theorem mem_of_getTupleMeta {rid : RID} {tupleMeta : TupleMeta}
 (found : manager.getTupleMeta rid = some tupleMeta) : (rid, tupleMeta.ts) ∈ manager.stamps := by
 obtain ⟨before, after, split, -⟩ := lookup_eq_some_iff.mp found
 refine mem_map.mpr ⟨(rid, tupleMeta), ?_, rfl⟩
 simp_all

theorem not_mem_of_getTupleMeta {rid : RID} (free : manager.getTupleMeta rid = none) (ts : ℕ) :
 (rid, ts) ∉ manager.stamps := by
 intro stored
 obtain ⟨tuple, inHeap, same⟩ := mem_map.mp stored
 have other := lookup_eq_none_iff.mp free tuple inHeap
 simp_all

end TransactionManager

namespace Database

open TransactionManager

variable {db : Database Value}

theorem Sound.insertTuple (sound : db.Sound) {id : TxnId} {table : ℕ} {rid : RID}
 (running : db.manager.stateOf id = some .running)
 (inside : table < db.manager.tables.length) (free : db.manager.getTupleMeta rid = none) :
 (db.insertTuple id table rid).Sound := by
 have perm : (db.insertTuple id table rid).manager.stamps.Perm
  ((rid, transactionTempTs id) :: db.manager.stamps) :=
  (flatten_modify_perm _ _ inside).map _
 have linked : ∀ other link, (db.insertTuple id table rid).manager.versionInfo other = some link →
  other ≠ rid ∧ db.manager.versionInfo other = some link := by
  intro other link found
  change update db.manager.versionInfo rid none other = some link at found
  by_cases own : other = rid
  · simp_all
  · simp_all
 have points : ∀ place link ts, (db.insertTuple id table rid).manager.Points place link ts ↔
  db.manager.Points place link ts := by
  intro place link ts
  constructor
  · intro pointed
    cases pointed with
    | head stored found =>
     obtain ⟨different, before⟩ := linked _ _ found
     rcases mem_cons.mp (perm.mem_iff.mp stored) with new | old
     · exact absurd (Prod.mk.inj new).1 different
     · exact .head old before
    | log found => exact .log found
  · intro pointed
    cases pointed with
    | @head other link ts stored found =>
     have different : other ≠ rid := by
      intro same
      exact not_mem_of_getTupleMeta free ts (same ▸ stored)
     refine .head (perm.mem_iff.mpr (mem_cons_of_mem _ stored)) ?_
     exact (update_of_ne different ..).trans found
    | log found => exact .log found
 have unused : ∀ ts, (rid, ts) ∉ db.manager.stamps := not_mem_of_getTupleMeta free
 obtain ⟨txn, present, -⟩ := Option.map_eq_some_iff.mp running
 have keyed := sound.keyed id txn present
 refine sound.quiet ⟨points, fun _ => rfl, rfl, rfl, Nat.le_refl _, fun _ _ found => found,
  fun _ => Iff.rfl⟩ sound.keyed sound.reads sound.readTs sound.watermark ?_ ?_ ?_ ?_
 · rw [(perm.map Prod.fst).nodup_iff, map_cons, nodup_cons]
   refine ⟨fun again => ?_, sound.rids⟩
   simp_all
 · intro slot ts stored
   rcases mem_cons.mp (perm.mem_iff.mp stored) with new | old
   · exact .inr ⟨id, keyed.2.1, keyed.2.2, (Prod.mk.inj new).2⟩
   · exact sound.written slot ts old
 · intro other slot found
   rw [perm.mem_iff, mem_cons, Prod.mk.injEq, ← sound.writeSets other slot found]
   refine mem_appendWriteSet.trans (or_congr_left ?_)
   constructor
   · intro own
     exact ⟨own.2, by rw [own.1]⟩
   · intro own
     exact ⟨(sound.temp_injective found keyed.2.1 own.2.symm).symm, own.1⟩
 · intro other slot link found stored isLinked
   obtain ⟨different, before⟩ := linked slot link isLinked
   rcases mem_cons.mp (perm.mem_iff.mp stored) with new | old
   · exact absurd (Prod.mk.inj new).1 different
   · exact sound.owned other slot link found old before

end Database

end MyNotes.Cmu15445
