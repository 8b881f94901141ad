/-
Runs of transactions, with commits and collections.

A commit gives the versions of a transaction its timestamp, all at once.
-/

import MyNotes.Library.Transition
import MyNotes.Cmu15445.TransactionWrites

namespace MyNotes.Cmu15445

open Library.Transition Function List Nat

variable {Value : Type}

namespace Database

open TransactionManager

variable {db : Database Value}

/-! ### Commits -/

theorem stateOf_commitTxn (txn : Transaction Value) (id : TxnId) :
 (db.commitTxn txn).manager.stateOf id =
  if id = txn.txnId then some .committed else db.manager.stateOf id :=
 stateOf_setTransaction { txn with state := .committed } id

variable {txn : Transaction Value}

theorem shape_commitTxn (present : db.manager.txnMap txn.txnId = some txn) (link : UndoLink) :
 (db.commitTxn txn).manager.shape link = db.manager.shape link :=
 @shape_setTransaction _ _ { txn with state := .committed } txn present rfl link

variable {id : TxnId}

theorem running_of_commitTxn (now : (db.commitTxn txn).manager.stateOf id = some .running) :
 id ≠ txn.txnId ∧ db.manager.stateOf id = some .running := by
 rw [stateOf_commitTxn] at now
 by_cases own : id = txn.txnId
 · rw [if_pos own] at now
   cases now
 · rw [if_neg own] at now
   exact ⟨own, now⟩

def commitStamp (db : Database Value) (id : TxnId) (ts : ℕ) : ℕ :=
 if ts = transactionTempTs id then db.lastCommitTs + 1 else ts

section

variable (sound : db.Sound)
include sound

theorem Sound.stamps_commitTxn (running : db.manager.stateOf txn.txnId = some .running) :
 (db.commitTxn txn).manager.stamps =
  db.manager.stamps.map fun stamp => (stamp.1, db.commitStamp txn.txnId stamp.2) := by
 have change : (db.commitTxn txn).manager.stamps = db.manager.stamps.map fun stamp =>
  (stamp.1, if stamp.1 ∈ db.writeSet txn.txnId then db.lastCommitTs + 1 else stamp.2) :=
  stamps_updateTupleMetas (fun rid tupleMeta => if rid ∈ db.writeSet txn.txnId then
   { tupleMeta with ts := db.lastCommitTs + 1 } else tupleMeta)
   (fun rid ts => if rid ∈ db.writeSet txn.txnId then db.lastCommitTs + 1 else ts)
   fun rid old => by split <;> rfl
 rw [change]
 apply map_congr_left
 intro stamp stored
 unfold commitStamp
 by_cases own : stamp.2 = transactionTempTs txn.txnId
 · rw [if_pos own, if_pos]
   rw [sound.writeSets _ _ running, ← own]
   exact stored
 · rw [if_neg own, if_neg]
   rw [sound.writeSets _ _ running]
   exact fun temp => own (sound.ts_unique stored temp)

theorem Sound.log_ts {link own : UndoLink} {ts : ℕ}
 (running : db.manager.stateOf id = some .running)
 (found : db.manager.shape own = some (ts, link)) : db.commitStamp id ts = ts := by
 have bound := sound.logs own _ found
 have late := sound.lastCommitTs_lt running
 refine if_neg fun same => ?_
 omega

theorem Sound.points_commitTxn {txn : Transaction Value}
 (present : db.manager.txnMap txn.txnId = some txn) (running : txn.state = .running)
 {place : RID ⊕ UndoLink} {link : UndoLink} {ts : ℕ} :
 (db.commitTxn txn).manager.Points place link ts ↔
  ∃ old, db.manager.Points place link old ∧ ts = db.commitStamp txn.txnId old := by
 have isRunning : db.manager.stateOf txn.txnId = some .running := by
  rw [stateOf_of_some present, running]
 constructor
 · intro points
   cases points with
   | @head slot link ts stored linked =>
    rw [sound.stamps_commitTxn isRunning] at stored
    obtain ⟨stamp, before, same⟩ := mem_map.mp stored
    obtain ⟨isSlot, isTs⟩ := Prod.mk.inj same
    subst isSlot
    exact ⟨stamp.2, .head before linked, isTs.symm⟩
   | @log own link ts found =>
    rw [shape_commitTxn present] at found
    exact ⟨ts, .log found, (sound.log_ts isRunning found).symm⟩
 · intro before
   obtain ⟨old, points, isTs⟩ := before
   subst isTs
   cases points with
   | @head slot link old stored linked =>
    refine .head ?_ linked
    rw [sound.stamps_commitTxn isRunning]
    grind
   | @log own link old found =>
    rw [sound.log_ts isRunning found]
    exact .log ((shape_commitTxn present own).trans found)

theorem Sound.stampOf_commitTxn (present : db.manager.txnMap txn.txnId = some txn)
 (running : txn.state = .running) (known : (db.manager.stateOf id).isSome = true) :
 (db.commitTxn txn).stampOf id = db.commitStamp txn.txnId (db.stampOf id) := by
 have isRunning : db.manager.stateOf txn.txnId = some .running := by
  rw [stateOf_of_some present, running]
 have commitTs : (db.commitTxn txn).commitTs =
  update db.commitTs txn.txnId (db.lastCommitTs + 1) := rfl
 unfold stampOf commitStamp
 rw [stateOf_commitTxn, commitTs]
 by_cases own : id = txn.txnId
 · have active : some TransactionState.running ≠ some .committed := by decide
   simp_all
 · rw [if_neg own, update_of_ne own]
   obtain ⟨idState, isState⟩ := Option.isSome_iff_exists.mp known
   have late := sound.lastCommitTs_lt isRunning
   by_cases committed : db.manager.stateOf id = some .committed
   · have bound := sound.commits id committed
     rw [if_pos committed, if_neg (by omega)]
   · rw [if_neg committed, if_neg]
     intro same
     exact own (sound.temp_injective isRunning (sound.started isState) same)

theorem Sound.mem_stamps_commitTxn (running : db.manager.stateOf txn.txnId = some .running)
 (small : db.lastCommitTs + 1 < txnStartId) {slot : RID}
 (now : (db.commitTxn txn).manager.stateOf id = some .running) :
 (slot, transactionTempTs id) ∈ (db.commitTxn txn).manager.stamps ↔
  (slot, transactionTempTs id) ∈ db.manager.stamps := by
 obtain ⟨different, before⟩ := running_of_commitTxn now
 have apart : transactionTempTs id ≠ transactionTempTs txn.txnId := fun same =>
  different (sound.temp_injective running (sound.started before) same)
 have started := sound.started before
 rw [sound.stamps_commitTxn running, mem_map]
 constructor
 · intro found
   obtain ⟨stamp, stored, same⟩ := found
   obtain ⟨isSlot, isTs⟩ := Prod.mk.inj same
   by_cases own : stamp.2 = transactionTempTs txn.txnId
   · have next : db.lastCommitTs + 1 = transactionTempTs id := (if_pos own).symm.trans isTs
     unfold transactionTempTs at next
     omega
   · rw [commitStamp, if_neg own] at isTs
     rw [← isSlot, ← isTs]
     exact stored
 · intro stored
   exact ⟨(slot, transactionTempTs id), stored, by rw [commitStamp, if_neg apart]⟩

theorem Sound.commitTxn (present : db.manager.txnMap txn.txnId = some txn)
 (running : txn.state = .running) (small : db.lastCommitTs + 1 < txnStartId) :
 (db.commitTxn txn).Sound := by
 have isRunning : db.manager.stateOf txn.txnId = some .running := by
  rw [stateOf_of_some present, running]
 have last : (db.commitTxn txn).lastCommitTs = db.lastCommitTs + 1 := rfl
 have stamps := sound.stamps_commitTxn isRunning
 have points := fun {place link ts} => @Sound.points_commitTxn _ db sound txn present running
  place link ts
 have known : ∀ id, ((db.commitTxn txn).manager.stateOf id).isSome = true →
  (db.manager.stateOf id).isSome = true := by
  intro id isSome
  rw [stateOf_commitTxn] at isSome
  by_cases own : id = txn.txnId
  · rw [own, isRunning]
    rfl
  · rw [if_neg own] at isSome
    exact isSome
 have reads : ∀ ts ∈ db.currentReads.erase (db.readTs txn.txnId), ts ≤ db.lastCommitTs + 1 :=
  fun ts member => (sound.reads ts (mem_of_mem_erase member)).trans (le_succ _)
 refine
  { keyed := ?_
    next := sound.next
    bound := small
    reads := reads
    readTs := fun id => (sound.readTs id).trans (le_succ _)
    watermark := getWatermark_le reads
    commits := ?_
    rids := ?_
    begun := ?_
    within := ?_
    stamped := ?_
    unique := ?_
    reached := ?_
    logs := ?_
    written := ?_
    writeSets := ?_
    owned := ?_ }
 · intro id entry now
   exact sound.keyed_update present now rfl
 · intro id committed
   change update db.commitTs txn.txnId _ id ≤ db.lastCommitTs + 1
   by_cases own : id = txn.txnId
   · rw [own, update_self]
   · rw [stateOf_commitTxn, if_neg own] at committed
     rw [update_of_ne own]
     exact (sound.commits id committed).trans (le_succ _)
 · rw [stamps, map_map]
   exact sound.rids
 · intro place link ts pointed valid
   obtain ⟨old, before, -⟩ := points.mp pointed
   exact sound.begun place link old before valid
 · intro place link ts pointed isSome
   obtain ⟨old, before, -⟩ := points.mp pointed
   rw [shape_commitTxn present]
   exact sound.within place link old before (known _ isSome)
 · intro place link ts behind pointed found
   rw [shape_commitTxn present] at found
   obtain ⟨old, before, isTs⟩ := points.mp pointed
   obtain ⟨older, stamped⟩ := sound.stamped place link old behind before found
   have bound := sound.logs link behind found
   rw [sound.stampOf_commitTxn present running (isSome_stateOf_of_shape found), stamped]
   refine ⟨?_, isTs.symm⟩
   rw [isTs, commitStamp]
   split <;> omega
 · intro place other link ts otherTs first second isSome
   rw [shape_commitTxn present] at isSome
   obtain ⟨old, before, -⟩ := points.mp first
   obtain ⟨otherOld, otherBefore, -⟩ := points.mp second
   exact sound.unique _ _ _ _ _ before otherBefore isSome
 · intro link isSome
   rw [shape_commitTxn present] at isSome
   obtain ⟨place, ts, before⟩ := sound.reached link isSome
   exact ⟨place, _, points.mpr ⟨ts, before, rfl⟩⟩
 · intro link behind found
   rw [shape_commitTxn present] at found
   exact (sound.logs link behind found).trans (le_succ _)
 · intro slot ts stored
   rw [stamps] at stored
   obtain ⟨stamp, before, same⟩ := mem_map.mp stored
   obtain ⟨isSlot, isTs⟩ := Prod.mk.inj same
   subst isSlot isTs
   rw [last, commitStamp]
   split
   · exact .inl (le_refl _)
   · rcases sound.written _ _ before with early | temp
     · exact .inl (early.trans (le_succ _))
     · exact .inr temp
 · intro id slot now
   rw [sound.mem_stamps_commitTxn isRunning small now]
   exact sound.writeSets id slot (running_of_commitTxn now).2
 · intro id slot link now stored linked
   rw [sound.mem_stamps_commitTxn isRunning small now] at stored
   exact sound.owned id slot link (running_of_commitTxn now).2 stored linked

/-! ### Runs -/

theorem Sound.modify {rid : RID} {tupleMeta : TupleMeta}
 (present : db.manager.txnMap txn.txnId = some txn) (running : txn.state = .running)
 (found : db.manager.getTupleMeta rid = some tupleMeta)
 (noConflict : ¬ db.writeWriteConflict txn.txnId tupleMeta.ts = true) (isDeleted : Bool)
 (modifiedFields : List Bool) (tuple : List Value) :
 (db.modifyTuple txn rid tupleMeta isDeleted modifiedFields tuple).Sound := by
 by_cases own : tupleMeta.ts = transactionTempTs txn.txnId
 · exact sound.modify_own present running found own isDeleted modifiedFields tuple
 · refine sound.modify_new present running found own ?_ isDeleted modifiedFields tuple
   have reader := sound.readTs txn.txnId
   rw [writeWriteConflict, Bool.or_eq_true, Bool.and_eq_true, Bool.and_eq_true,
    decide_eq_true_iff, decide_eq_true_iff, decide_eq_true_iff, decide_eq_true_iff] at noConflict
   by_contra late
   rcases lt_or_ge tupleMeta.ts txnStartId with committed | temp
   · exact noConflict (.inr ⟨by omega, committed⟩)
   · exact noConflict (.inl ⟨temp, own⟩)

/-- What an event does. -/
inductive Stepped (db : Database Value) : TxnEvent Value → Database Value → Prop
 | begin : Stepped db .begin db.beginTxn
 | insert {id : TxnId} {table : ℕ} {rid : RID} (running : db.manager.stateOf id = some .running)
  (inside : table < db.manager.tables.length) (free : db.manager.getTupleMeta rid = none) :
  Stepped db (.insert id table rid) (db.insertTuple id table rid)
 | taint {txn : Transaction Value} {rid : RID} {isDeleted : Bool} {fields : List Bool}
  {tuple : List Value} (present : db.manager.txnMap txn.txnId = some txn)
  (running : txn.state = .running) : Stepped db (.modify txn.txnId rid isDeleted fields tuple)
   { db with manager := db.manager.setTransaction { txn with state := .tainted } }
 | modify {txn : Transaction Value} {rid : RID} {isDeleted : Bool} {fields : List Bool}
  {tuple : List Value} {tupleMeta : TupleMeta}
  (present : db.manager.txnMap txn.txnId = some txn) (running : txn.state = .running)
  (found : db.manager.getTupleMeta rid = some tupleMeta)
  (noConflict : ¬ db.writeWriteConflict txn.txnId tupleMeta.ts = true) :
  Stepped db (.modify txn.txnId rid isDeleted fields tuple)
   (db.modifyTuple txn rid tupleMeta isDeleted fields tuple)
 | commit {txn : Transaction Value} (present : db.manager.txnMap txn.txnId = some txn)
  (running : txn.state = .running) (small : db.lastCommitTs + 1 < txnStartId) :
  Stepped db (.commit txn.txnId) (db.commitTxn txn)
 | abort {txn : Transaction Value} (present : db.manager.txnMap txn.txnId = some txn)
  (active : txn.state = .running ∨ txn.state = .tainted) :
  Stepped db (.abort txn.txnId) (db.finish txn .aborted)
 | collect {after : TransactionManager Value} (done : db.manager.garbageCollection = some after) :
  Stepped db .garbageCollection { db with manager := after }

theorem Sound.stepped {event : TxnEvent Value} {next : Database Value}
 (taken : db.step event = some next) : Stepped db event next := by
 have own : ∀ id txn, db.manager.txnMap id = some txn → id = txn.txnId := fun id txn present =>
  (sound.keyed id txn present).1.symm
 cases event with
 | begin =>
  cases taken
  exact .begin
 | insert id table rid =>
  dsimp only [Database.step] at taken
  split at taken
  · rename_i txn present
    obtain ⟨⟨running, inside, free⟩, same⟩ := Option.ite_none_right_eq_some.mp taken
    rw [← Option.some.inj same]
    exact .insert (by rw [stateOf_of_some present, running]) inside free
  · cases taken
 | modify id rid isDeleted modifiedFields tuple =>
  dsimp only [Database.step] at taken
  split at taken
  · rename_i txn tupleMeta present found
    obtain ⟨running, same⟩ := Option.ite_none_right_eq_some.mp taken
    obtain rfl := own id txn present
    split at same
    · rw [← Option.some.inj same]
      exact .taint present running
    · rename_i noConflict
      rw [← Option.some.inj same]
      exact .modify present running found noConflict
  · cases taken
 | commit id =>
  dsimp only [Database.step] at taken
  split at taken
  · rename_i txn present
    obtain ⟨⟨running, small⟩, same⟩ := Option.ite_none_right_eq_some.mp taken
    obtain rfl := own id txn present
    rw [← Option.some.inj same]
    exact .commit present running small
  · cases taken
 | abort id =>
  dsimp only [Database.step] at taken
  split at taken
  · rename_i txn present
    obtain ⟨active, same⟩ := Option.ite_none_right_eq_some.mp taken
    obtain rfl := own id txn present
    rw [← Option.some.inj same]
    exact .abort present active
  · cases taken
 | garbageCollection =>
  obtain ⟨after, done, same⟩ := Option.map_eq_some_iff.mp taken
  rw [← same]
  exact .collect done

theorem Sound.step {event : TxnEvent Value} {next : Database Value}
 (taken : db.step event = some next) : next.Sound := by
 cases sound.stepped taken with
 | begin => exact sound.beginTxn
 | insert running inside free => exact sound.insertTuple running inside free
 | taint present running => exact sound.taint present (by rw [running]; nofun)
 | modify present running found noConflict =>
  exact sound.modify present running found noConflict _ _ _
 | commit present running small => exact sound.commitTxn present running small
 | abort present active =>
  refine sound.finish_aborted present fun committed => ?_
  rcases active with running | tainted
  · cases running.symm.trans committed
  · cases tainted.symm.trans committed
 | collect done => exact sound.collect done

end

theorem sound_of_run {tableCount : ℕ} {events : List (TxnEvent Value)} {final : Database Value}
 (run : Run (ofFunction Database.step) (start tableCount) events final) : final.Sound :=
 run.invariant (start_sound tableCount) fun _ _ _ sound taken => sound.step taken

end Database

/-! ### The logs that readers need -/

namespace TransactionManager

variable {manager : TransactionManager Value}

/-- A log is visible when some reader at or above the watermark rebuilds its version from
logs among which it is. -/
def Visible (self : TransactionManager Value) (link : UndoLink) : Prop :=
 ∃ readTs, self.watermark ≤ readTs ∧ ∃ tuple ∈ self.tables.flatten, ∃ undoLogs,
  self.read readTs tuple = some (.undone undoLogs) ∧
   link ∈ ((self.chainOf tuple).take undoLogs.length).map Prod.fst

theorem readChain_split {readTs fuel : ℕ} {link : UndoLink}
 {newer rest : List (UndoLink × UndoLog Value)} {entry : UndoLink × UndoLog Value}
 (split : manager.chain fuel link = newer ++ entry :: rest)
 (new : ∀ other ∈ newer, readTs < other.2.ts) (old : entry.2.ts ≤ readTs)
 (undoLogs : List (UndoLog Value)) :
 manager.readChain readTs fuel link undoLogs =
  some (.undone (undoLogs ++ newer.map Prod.snd ++ [entry.2])) := by
 induction fuel generalizing link newer undoLogs with
 | zero => cases newer <;> cases split
 | succ fuel ih =>
  rcases manager.chain_cases fuel link with empty | ⟨undoLog, valid, found, walked⟩
  · simp_all
  · rw [walked] at split
    rw [readChain, if_neg valid, found]
    cases newer with
    | nil =>
     grind
    | cons first newer =>
     obtain ⟨same, later⟩ := List.cons.inj split
     subst same
     have late := new _ mem_cons_self
     grind

end TransactionManager

namespace Database

variable {db : Database Value}

open TransactionManager

theorem Sound.split_chain (sound : db.Sound) {fuel : ℕ} {place ownPlace : RID ⊕ UndoLink}
 {link own : UndoLink} {ts ownTs : ℕ} (points : db.manager.Points place link ts)
 (ownPoints : db.manager.Points ownPlace own ownTs)
 (member : own ∈ (db.manager.chain fuel link).map Prod.fst) :
 ∃ newer undoLog rest, db.manager.chain fuel link = newer ++ (own, undoLog) :: rest ∧
  ownTs ≤ ts ∧ ∀ entry ∈ newer, ownTs ≤ entry.2.ts := by
 induction fuel generalizing place link ts with
 | zero => cases member
 | succ fuel ih =>
  rcases db.manager.chain_cases fuel link with empty | ⟨undoLog, -, found, walked⟩
  · rw [empty] at member
    cases member
  · rw [walked] at member ⊢
    have here := shape_of_log found
    rcases mem_cons.mp member with first | later
    · have isFirst : own = link := first
      subst isFirst
      have same := sound.stamp_unique points ownPoints here
      exact ⟨[], undoLog, _, rfl, same.ge, fun _ impossible => by cases impossible⟩
    · obtain ⟨newer, ownLog, rest, split, old, new⟩ := ih (.log here) later
      have older := (sound.stamped _ _ _ _ points here).1
      refine ⟨(link, undoLog) :: newer, ownLog, rest, by rw [split]; rfl,
       old.trans older.le, fun entry inside => ?_⟩
      rcases mem_cons.mp inside with isFirst | inNewer
      · rw [isFirst]
        exact old
      · exact new entry inNewer

theorem Sound.visible (sound : db.Sound) {place : RID ⊕ UndoLink} {link : UndoLink} {ts : ℕ}
 {behind : ℕ × UndoLink} (points : db.manager.Points place link ts)
 (found : db.manager.shape link = some behind) (new : db.manager.watermark < ts) :
 db.manager.Visible link := by
 obtain ⟨tuple, stored, member⟩ := sound.mem_chainOf found
 obtain ⟨first, head, same⟩ := points_of_mem_chainOf stored member
 have member' := member
 rw [same] at member'
 obtain ⟨newer, undoLog, rest, split, old, front⟩ := sound.split_chain head points member'
 have isLog : (link, undoLog) ∈ db.manager.chain (db.manager.chainFuel first) first := by
  rw [split]
  exact mem_append_right _ mem_cons_self
 have older : undoLog.ts < ts :=
  (sound.stamped _ _ _ _ points (shape_of_log (found_of_mem_chain isLog))).1
 -- The reader at the log's own timestamp, or at the watermark if that is later.
 refine ⟨max db.manager.watermark undoLog.ts, le_max_left _ _, tuple, stored,
  newer.map Prod.snd ++ [undoLog], ?_, ?_⟩
 · have linked : db.manager.getUndoLink tuple.1 = some first := by
    cases head with
    | head _ linked => exact linked
   unfold TransactionManager.read
   rw [if_neg (by omega), linked]
   refine readChain_split split (fun entry inside => ?_) (le_max_right _ _) []
   have late := front entry inside
   dsimp only
   omega
 · rw [same, split, length_append, length_map, length_singleton,
    take_length_add_append, map_append]
   simp

/-- Transactions begin, write, commit and abort, and collections run, in any order: the next
collection ends, and every ended transaction without a visible log is gone. -/
theorem garbageCollection_complete {tableCount : ℕ} {events : List (TxnEvent Value)}
 {db : Database Value} (run : Run (ofFunction Database.step) (start tableCount) events db) :
 ∃ after, db.manager.garbageCollection = some after ∧
  ∀ id txn, db.manager.txnMap id = some txn →
   txn.state = .committed ∨ txn.state = .aborted →
   (∀ index < txn.undoLogs.length, ¬ db.manager.Visible ⟨id, index⟩) →
   after.txnMap id = none := by
 have sound := sound_of_run run
 obtain ⟨after, done, swept⟩ := sound.garbageCollection_spec
 refine ⟨after, done, fun id txn present ended unseen => ?_⟩
 have own := (sound.keyed id txn present).1
 have gone : Gone db.manager txn := by
  refine ⟨fun index bound => ?_, ended⟩
  have stored : (db.manager.shape ⟨id, index⟩).isSome = true := by
   unfold shape getUndoLogOptional
   rw [present, Option.bind_some, List.getElem?_eq_getElem bound]
   rfl
  obtain ⟨behind, found⟩ := Option.isSome_iff_exists.mp stored
  obtain ⟨place, ts, points⟩ := sound.reached _ stored
  rw [own, sound.mem_allCounted_iff points found]
  by_contra new
  exact unseen index bound (sound.visible points found (Nat.lt_of_not_le new))
 cases removed : after.txnMap id with
 | none => rfl
 | some again =>
  obtain ⟨before, kept⟩ := (swept.txnMap id again).mp removed
  simp_all

/-- Three transactions commit versions of one slot; the collection during the fourth removes
them and leaves a link to one of them in the chain. -/
def dangled : List (TxnEvent ℕ) :=
 [.begin, .insert txnStartId 0 ⟨0, 0⟩, .commit txnStartId,
  .begin, .modify (txnStartId + 1) ⟨0, 0⟩ false [true] [1], .commit (txnStartId + 1),
  .begin, .modify (txnStartId + 2) ⟨0, 0⟩ false [true] [2], .commit (txnStartId + 2),
  .begin, .modify (txnStartId + 3) ⟨0, 0⟩ false [true] [3], .garbageCollection,
  .commit (txnStartId + 3)]

theorem garbageCollection_complete_dangled :
 ∃ db after, replay Database.step (start 1) dangled = some db ∧
  db.manager.shape ⟨txnStartId + 3, 0⟩ = some (3, ⟨txnStartId + 2, 0⟩) ∧
  db.manager.shape ⟨txnStartId + 2, 0⟩ = none ∧
  db.manager.garbageCollection = some after ∧ after.txnMap (txnStartId + 3) = none := by
 have final : (replay Database.step (start 1) dangled).map (fun db => decide (
  db.manager.shape ⟨txnStartId + 3, 0⟩ = some (3, ⟨txnStartId + 2, 0⟩) ∧
   db.manager.shape ⟨txnStartId + 2, 0⟩ = none ∧ db.manager.stamps = [(⟨0, 0⟩, 4)] ∧
   db.manager.watermark = 4 ∧ db.manager.stateOf (txnStartId + 3) = some .committed)) =
  some true := by
  decide +kernel
 obtain ⟨db, replayed, same⟩ := Option.map_eq_some_iff.mp final
 obtain ⟨last, lost, stamps, watermark, state⟩ := of_decide_eq_true same
 obtain ⟨after, done, complete⟩ := garbageCollection_complete (Run.of_replay_all replayed)
 obtain ⟨txn, present, committed⟩ := Option.map_eq_some_iff.mp state
 refine ⟨db, after, replayed, last, lost, done, complete _ txn present (.inl committed) ?_⟩
 intro index _ visible
 obtain ⟨readTs, allowed, tuple, stored, undoLogs, undone, -⟩ := visible
 have stamp := mem_stamps stored
 rw [stamps, mem_singleton, Prod.mk.injEq] at stamp
 unfold TransactionManager.read at undone
 rw [if_pos (by omega)] at undone
 cases undone

end Database

end MyNotes.Cmu15445
