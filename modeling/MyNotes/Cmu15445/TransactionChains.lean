/-
The undo logs that transactions leave.

Timestamps decrease along a chain, no log is in two chains, and the versions of a transaction
have one timestamp.  What the collector counts are therefore the logs behind versions that all
readers may skip, and it removes a transaction as a whole.
-/

import MyNotes.Cmu15445.Transactions
import Mathlib.Algebra.Order.Monoid.Unbundled.Basic

namespace MyNotes.Cmu15445

open List Bool Nat

variable {Value : Type}

namespace TransactionManager

section

variable (self : TransactionManager Value)

def stamps : List (RID × ℕ) :=
 self.heap.map fun tuple => (tuple.1, tuple.2.ts)

/-- The timestamp of a log and the link to the version behind it. -/
def shape (link : UndoLink) : Option (ℕ × UndoLink) :=
 (self.getUndoLogOptional link).map fun undoLog => (undoLog.ts, undoLog.prevVersion)

def stateOf (id : TxnId) : Option TransactionState :=
 (self.txnMap id).map Transaction.state

end

/-- A version, by its slot or by its log, with the link behind it and its timestamp. -/
inductive Points (manager : TransactionManager Value) : RID ⊕ UndoLink → UndoLink → ℕ → Prop
 | head {rid : RID} {link : UndoLink} {ts : ℕ} (stored : (rid, ts) ∈ manager.stamps)
  (linked : manager.versionInfo rid = some link) : Points manager (.inl rid) link ts
 | log {own link : UndoLink} {ts : ℕ} (found : manager.shape own = some (ts, link)) :
  Points manager (.inr own) link ts

end TransactionManager

namespace Database

/-- The timestamp of the versions that a transaction has written. -/
def stampOf (self : Database Value) (id : TxnId) : ℕ :=
 if self.manager.stateOf id = some .committed then self.commitTs id else transactionTempTs id

/-- Every log that is there stands behind exactly one version, and that version is the one
that the transaction of the log has written. -/
structure Sound (db : Database Value) : Prop where
 keyed : ∀ id txn, db.manager.txnMap id = some txn →
  txn.txnId = id ∧ (txnStartId : ℤ) ≤ id ∧ id < db.nextTxnId
 next : txnStartId ≤ db.nextTxnId
 bound : db.lastCommitTs < txnStartId
 reads : ∀ ts ∈ db.currentReads, ts ≤ db.lastCommitTs
 readTs : ∀ id, db.readTs id ≤ db.lastCommitTs
 watermark : db.manager.watermark ≤ db.lastCommitTs
 commits : ∀ id, db.manager.stateOf id = some .committed → db.commitTs id ≤ db.lastCommitTs
 rids : (db.manager.stamps.map Prod.fst).Nodup
 begun : ∀ place link ts, db.manager.Points place link ts → link.isValid = true →
  link.prevTxn < db.nextTxnId
 within : ∀ place link ts, db.manager.Points place link ts →
  (db.manager.stateOf link.prevTxn).isSome = true → (db.manager.shape link).isSome = true
 stamped : ∀ place link ts behind, db.manager.Points place link ts →
  db.manager.shape link = some behind → behind.1 < ts ∧ db.stampOf link.prevTxn = ts
 unique : ∀ place other link ts otherTs, db.manager.Points place link ts →
  db.manager.Points other link otherTs → (db.manager.shape link).isSome = true → place = other
 reached : ∀ link, (db.manager.shape link).isSome = true →
  ∃ place ts, db.manager.Points place link ts
 logs : ∀ link behind, db.manager.shape link = some behind → behind.1 ≤ db.lastCommitTs
 written : ∀ rid ts, (rid, ts) ∈ db.manager.stamps → ts ≤ db.lastCommitTs ∨
  ∃ id : TxnId, (txnStartId : ℤ) ≤ id ∧ id < db.nextTxnId ∧ ts = transactionTempTs id
 writeSets : ∀ id rid, db.manager.stateOf id = some .running →
  (rid ∈ db.writeSet id ↔ (rid, transactionTempTs id) ∈ db.manager.stamps)
 owned : ∀ id rid link, db.manager.stateOf id = some .running →
  (rid, transactionTempTs id) ∈ db.manager.stamps → db.manager.versionInfo rid = some link →
   link.isValid = true → link.prevTxn = id

theorem start_sound (tableCount : ℕ) : (start tableCount : Database Value).Sound := by
 have empty : (start tableCount : Database Value).manager.stamps = [] := by
  simp [TransactionManager.stamps, TransactionManager.heap, start]
 have nowhere : ∀ place link ts,
  ¬ (start tableCount : Database Value).manager.Points place link ts := by
  intro place link ts points
  cases points with
  | head stored _ => rw [empty] at stored; cases stored
  | log found => cases found
 refine
  { keyed := fun _ _ impossible => by cases impossible
    next := le_refl _
    bound := succ_pos _
    watermark := le_refl _
    reads := fun _ impossible => by cases impossible
    readTs := fun _ => le_refl _
    commits := fun _ impossible => by cases impossible
    rids := ?_
    begun := fun place link ts points => absurd points (nowhere place link ts)
    within := fun place link ts points => absurd points (nowhere place link ts)
    stamped := fun place link ts _ points => absurd points (nowhere place link ts)
    unique := fun place _ link ts _ points => absurd points (nowhere place link ts)
    reached := fun _ impossible => by cases impossible
    logs := fun _ _ impossible => by cases impossible
    written := ?_
    writeSets := fun _ _ impossible => by cases impossible
    owned := fun _ _ _ impossible => by cases impossible }
 · rw [empty]
   exact nodup_nil
 · simp_all

end Database

namespace TransactionManager

variable {manager : TransactionManager Value} {link : UndoLink} {behind : ℕ × UndoLink}

theorem stateOf_of_some {id : TxnId} {txn : Transaction Value}
 (present : manager.txnMap id = some txn) : manager.stateOf id = some txn.state := by
 rw [stateOf, present]
 rfl

theorem exists_of_isSome_stateOf {id : TxnId} (present : (manager.stateOf id).isSome = true) :
 ∃ txn, manager.txnMap id = some txn := by
 rw [stateOf, Option.isSome_map] at present
 exact Option.isSome_iff_exists.mp present

theorem shape_eq_some (found : manager.shape link = some behind) :
 ∃ txn undoLog, manager.txnMap link.prevTxn = some txn ∧
  txn.undoLogs[link.prevLogIdx]? = some undoLog ∧
  behind = (undoLog.ts, undoLog.prevVersion) := by
 obtain ⟨undoLog, log, same⟩ := Option.map_eq_some_iff.mp found
 obtain ⟨txn, present, stored⟩ := Option.bind_eq_some_iff.mp log
 simp_all

theorem isSome_stateOf_of_shape (found : manager.shape link = some behind) :
 (manager.stateOf link.prevTxn).isSome = true := by
 obtain ⟨txn, undoLog, present, -⟩ := shape_eq_some found
 rw [stateOf_of_some present]
 rfl

theorem shape_of_log {undoLog : UndoLog Value}
 (found : manager.getUndoLogOptional link = some undoLog) :
 manager.shape link = some (undoLog.ts, undoLog.prevVersion) := by
 rw [shape, found]
 rfl

theorem mem_stamps {tuple : RID × TupleMeta} (stored : tuple ∈ manager.tables.flatten) :
 (tuple.1, tuple.2.ts) ∈ manager.stamps :=
 mem_map.mpr ⟨tuple, stored, rfl⟩

theorem mem_chain_cases {fuel : ℕ} {own : UndoLink}
 (member : own ∈ (manager.chain fuel link).map Prod.fst) :
 own = link ∨ ∃ newer ∈ (manager.chain fuel link).map Prod.fst, ∃ ts,
  manager.shape newer = some (ts, own) := by
 induction fuel generalizing link with
 | zero => cases member
 | succ fuel ih =>
  rcases manager.chain_cases fuel link with empty | ⟨undoLog, -, found, walked⟩
  · rw [empty] at member
    cases member
  · rw [walked, map_cons] at member ⊢
    rcases mem_cons.mp member with first | later
    · exact .inl first
    · rcases ih later with next | ⟨newer, inside, ts, points⟩
      · exact .inr ⟨link, mem_cons_self, undoLog.ts, next ▸ shape_of_log found⟩
      · grind

theorem shape_of_mem_chain {fuel : ℕ} {own : UndoLink}
 (member : own ∈ (manager.chain fuel link).map Prod.fst) :
 ∃ behind, manager.shape own = some behind := by
 obtain ⟨entry, inside, same⟩ := mem_map.mp member
 rw [← same]
 exact ⟨_, shape_of_log (found_of_mem_chain inside)⟩

end TransactionManager

namespace Database

open TransactionManager

variable {db : Database Value} {link : UndoLink} {behind : ℕ × UndoLink}

theorem isValid_of_started (started : (txnStartId : ℤ) ≤ link.prevTxn) : link.isValid = true := by
 refine decide_eq_true fun invalid => ?_
 rw [invalid] at started
 exact absurd started (by decide)

theorem Sound.valid (sound : db.Sound) (found : db.manager.shape link = some behind) :
 link.isValid = true := by
 obtain ⟨txn, undoLog, present, -⟩ := shape_eq_some found
 exact isValid_of_started (sound.keyed _ _ present).2.1

variable {place : RID ⊕ UndoLink} {ts : ℕ}

theorem Sound.stamp_unique (sound : db.Sound) {other : RID ⊕ UndoLink} {otherTs : ℕ}
 (first : db.manager.Points place link ts) (second : db.manager.Points other link otherTs)
 (found : db.manager.shape link = some behind) : ts = otherTs :=
 (sound.stamped _ _ _ _ first found).2.symm.trans (sound.stamped _ _ _ _ second found).2

/-! ### The chains -/

variable {fuel : ℕ} {own : UndoLink}

section

variable (sound : db.Sound)
include sound

theorem Sound.counted_iff (points : db.manager.Points place link ts) {ownTs : ℕ}
 {ownPlace : RID ⊕ UndoLink} (ownPoints : db.manager.Points ownPlace own ownTs)
 (member : own ∈ (db.manager.chain fuel link).map Prod.fst) :
 own ∈ counted db.manager.watermark (decide (ts ≤ db.manager.watermark))
  (db.manager.chain fuel link) ↔ ownTs ≤ db.manager.watermark := by
 induction fuel generalizing place link ts with
 | zero => cases member
 | succ fuel ih =>
  rcases db.manager.chain_cases fuel link with empty | ⟨undoLog, -, found, walked⟩
  · rw [empty] at member
    cases member
  · rw [walked] at member ⊢
    have here := shape_of_log found
    have older := (sound.stamped _ _ _ _ points here).1
    -- Timestamps decrease, so only the version just in front of a log matters.
    have flag : (decide (ts ≤ db.manager.watermark) ||
     decide (undoLog.ts ≤ db.manager.watermark)) =
     decide (undoLog.ts ≤ db.manager.watermark) := by
     by_cases low : ts ≤ db.manager.watermark
     · rw [decide_eq_true low, decide_eq_true (by omega), Bool.or_true]
     · rw [decide_eq_false low, Bool.false_or]
    rw [counted, flag, mem_append]
    constructor
    · intro either
      rcases either with first | later
      · by_cases low : ts ≤ db.manager.watermark
        · rw [decide_eq_true low, if_pos rfl] at first
          have isFirst := mem_singleton.mp first
          subst own
          exact (sound.stamp_unique points ownPoints here) ▸ low
        · simp_all
      · exact (ih (.log here) ((counted_sublist _ _ _).subset later)).mp later
    · intro low
      rcases mem_cons.mp member with first | later
      · subst own
        rw [sound.stamp_unique points ownPoints here, decide_eq_true low, if_pos rfl]
        exact .inl (mem_singleton_self _)
      · exact .inr ((ih (.log here) later).mpr low)

theorem Sound.chain_older (points : db.manager.Points place link ts) :
 ∀ entry ∈ db.manager.chain fuel link, entry.2.ts < ts := by
 induction fuel generalizing place link ts with
 | zero => intro entry member; cases member
 | succ fuel ih =>
  intro entry member
  rcases db.manager.chain_cases fuel link with empty | ⟨undoLog, -, found, walked⟩
  · rw [empty] at member
    cases member
  · rw [walked] at member
    have older := (sound.stamped _ _ _ _ points (shape_of_log found)).1
    rcases mem_cons.mp member with first | later
    · rw [first]
      exact older
    · exact (ih (.log (shape_of_log found)) entry later).trans older

theorem Sound.chain_nodup (fuel : ℕ) (link : UndoLink) :
 ((db.manager.chain fuel link).map Prod.fst).Nodup := by
 induction fuel generalizing link with
 | zero => exact nodup_nil
 | succ fuel ih =>
  rcases db.manager.chain_cases fuel link with empty | ⟨undoLog, -, found, walked⟩
  · rw [empty]
    exact nodup_nil
  · rw [walked, map_cons, nodup_cons]
    refine ⟨fun again => ?_, ih _⟩
    obtain ⟨entry, inside, same⟩ := mem_map.mp again
    have older := sound.chain_older (.log (shape_of_log found)) entry inside
    have stored := found_of_mem_chain inside
    simp_all

theorem Sound.chains_disjoint {rid other : RID} {first second : UndoLink} {otherTs otherFuel : ℕ}
 (points : db.manager.Points (.inl rid) first ts)
 (otherPoints : db.manager.Points (.inl other) second otherTs)
 (member : own ∈ (db.manager.chain fuel first).map Prod.fst)
 (inOther : own ∈ (db.manager.chain otherFuel second).map Prod.fst) : rid = other := by
 obtain ⟨behind, found⟩ := shape_of_mem_chain member
 have isSome : (db.manager.shape own).isSome = true := by
  rw [found]
  rfl
 -- The induction goes up the chains, to newer logs.
 induction gap : db.lastCommitTs - behind.1 using Nat.strongRecOn generalizing own behind with
 | ind gap ih =>
  subst gap
  rcases mem_chain_cases member with isFirst | ⟨newer, inside, newerTs, newerFound⟩
  · rcases mem_chain_cases inOther with isSecond | ⟨newer, inside, newerTs, newerFound⟩
    · exact Sum.inl.inj (sound.unique _ _ own _ _ (isFirst ▸ points) (isSecond ▸ otherPoints)
       isSome)
    · cases sound.unique _ _ own _ _ (isFirst ▸ points) (.log newerFound) isSome
  · rcases mem_chain_cases inOther with isSecond | ⟨again, inAgain, againTs, againFound⟩
    · cases sound.unique _ _ own _ _ (.log newerFound) (isSecond ▸ otherPoints) isSome
    · cases sound.unique _ _ own _ _ (.log newerFound) (.log againFound) isSome
      have older := (sound.stamped _ _ _ _ (.log newerFound) found).1
      have bound := sound.logs newer _ newerFound
      refine ih _ ?_ inside inAgain (newerTs, own) newerFound ?_ rfl
      · omega
      · rw [newerFound]
        rfl

theorem Sound.rids_heap : (db.manager.tables.flatten.map Prod.fst).Nodup := by
 have rids := sound.rids
 rw [stamps, map_map] at rids
 exact rids

end

theorem points_of_mem_chainOf {tuple : RID × TupleMeta} (stored : tuple ∈ db.manager.tables.flatten)
 (member : own ∈ (db.manager.chainOf tuple).map Prod.fst) :
 ∃ link, db.manager.Points (.inl tuple.1) link tuple.2.ts ∧
  db.manager.chainOf tuple = db.manager.chain (db.manager.chainFuel link) link := by
 unfold chainOf at member ⊢
 cases head : db.manager.getUndoLink tuple.1 with
 | none =>
  rw [head] at member
  cases member
 | some link => exact ⟨link, .head (mem_stamps stored) head, rfl⟩

theorem Sound.chained (sound : db.Sound) : db.manager.Chained where
 keyed id txn present := (sound.keyed id txn present).1
 decreasing link undoLog older found next :=
  (sound.stamped _ _ _ _ (.log (shape_of_log found)) (shape_of_log next)).1
 separate := by
  rw [nodup_flatMap]
  constructor
  · intro tuple stored
    unfold chainOf
    cases db.manager.getUndoLink tuple.1 with
    | none => exact nodup_nil
    | some link => exact sound.chain_nodup _ _
  · refine (pairwise_map.mp sound.rids_heap).imp_of_mem ?_
    intro tuple other stored otherStored different own member inOther
    obtain ⟨first, points, same⟩ := points_of_mem_chainOf stored member
    obtain ⟨second, otherPoints, otherSame⟩ := points_of_mem_chainOf otherStored inOther
    dsimp only at member inOther
    rw [same] at member
    rw [otherSame] at inOther
    exact different (sound.chains_disjoint points otherPoints member inOther)

theorem Sound.head_mem_chain (sound : db.Sound) (positive : 1 ≤ fuel)
 (found : db.manager.shape link = some behind) :
 link ∈ (db.manager.chain fuel link).map Prod.fst := by
 obtain ⟨undoLog, log, -⟩ := Option.map_eq_some_iff.mp found
 have valid := sound.valid found
 cases fuel with
 | zero => omega
 | succ fuel =>
  rw [chain, if_neg (by rw [valid]; exact false_ne_true), log]
  exact mem_cons_self

theorem Sound.next_mem_chain (sound : db.Sound) {next : UndoLink}
 (enough : db.manager.Enough fuel link) (member : own ∈ (db.manager.chain fuel link).map Prod.fst)
 (points : db.manager.shape own = some (ts, next)) (found : db.manager.shape next = some behind) :
 next ∈ (db.manager.chain fuel link).map Prod.fst := by
 induction fuel generalizing link with
 | zero => cases member
 | succ fuel ih =>
  rcases db.manager.chain_cases fuel link with empty | ⟨undoLog, -, log, walked⟩
  · rw [empty] at member
    cases member
  · rw [walked] at member ⊢
    have rest := sound.chained.enough_older enough log
    rcases mem_cons.mp member with first | later
    · have isFirst : own = link := first
      rw [isFirst, shape_of_log log] at points
      cases points
      exact mem_cons_of_mem _ (sound.head_mem_chain rest.1 found)
    · exact mem_cons_of_mem _ (ih rest later)

theorem Sound.mem_chainOf (sound : db.Sound) (found : db.manager.shape link = some behind) :
 ∃ tuple ∈ db.manager.tables.flatten, link ∈ (db.manager.chainOf tuple).map Prod.fst := by
 induction gap : db.lastCommitTs - behind.1 using Nat.strongRecOn generalizing link behind with
 | ind gap ih =>
  subst gap
  obtain ⟨place, ts, points⟩ := sound.reached link (by rw [found]; rfl)
  have older := (sound.stamped _ _ _ _ points found).1
  cases points with
  | @head rid link ts stored linked =>
   obtain ⟨tuple, inHeap, same⟩ := mem_map.mp stored
   refine ⟨tuple, inHeap, ?_⟩
   rw [← (Prod.mk.inj same).1] at linked
   rw [chainOf, getUndoLink, linked]
   exact sound.head_mem_chain (chainFuel_enough _ _).1 found
  | @log own link ts newerFound =>
   have bound := sound.logs own _ newerFound
   obtain ⟨tuple, inHeap, member⟩ := ih _ (by dsimp only at bound ⊢; omega) newerFound rfl
   refine ⟨tuple, inHeap, ?_⟩
   obtain ⟨first, -, same⟩ := points_of_mem_chainOf inHeap member
   rw [same] at member ⊢
   exact sound.next_mem_chain (chainFuel_enough _ _) member newerFound found

theorem mem_allCounted {manager : TransactionManager Value} :
 link ∈ manager.allCounted ↔
  ∃ tuple ∈ manager.tables.flatten, link ∈ manager.countedOf tuple :=
 mem_flatMap

theorem Sound.mem_allCounted_iff (sound : db.Sound) (points : db.manager.Points place link ts)
 (found : db.manager.shape link = some behind) :
 link ∈ db.manager.allCounted ↔ ts ≤ db.manager.watermark := by
 have each : ∀ tuple ∈ db.manager.tables.flatten,
  link ∈ (db.manager.chainOf tuple).map Prod.fst →
   (link ∈ db.manager.countedOf tuple ↔ ts ≤ db.manager.watermark) := by
  intro tuple stored member
  obtain ⟨first, head, same⟩ := points_of_mem_chainOf stored member
  unfold countedOf
  rw [same] at member ⊢
  exact sound.counted_iff head points member
 constructor
 · intro counted
   obtain ⟨tuple, stored, inTuple⟩ := mem_allCounted.mp counted
   exact (each tuple stored ((counted_sublist _ _ _).subset inTuple)).mp inTuple
 · intro low
   obtain ⟨tuple, stored, member⟩ := sound.mem_chainOf found
   exact mem_allCounted.mpr ⟨tuple, stored, (each tuple stored member).mpr low⟩

/-! ### The collector -/

variable {id : TxnId} {txn : Transaction Value}

theorem Sound.count_eq (sound : db.Sound) (present : db.manager.txnMap id = some txn)
 (all : ∀ index < txn.undoLogs.length, ⟨id, index⟩ ∈ db.manager.allCounted) :
 (db.manager.allCounted.countP fun link => link.prevTxn = id) = txn.undoLogs.length := by
 have own : ∀ link ∈ db.manager.allCounted.filter (fun link => link.prevTxn = id),
  ∃ index < txn.undoLogs.length, link = ⟨id, index⟩ := by
  intro link member
  obtain ⟨inCounted, same⟩ := mem_filter.mp member
  have prevTxn : link.prevTxn = id := of_decide_eq_true same
  obtain ⟨undoLog, found⟩ := found_of_counted inCounted
  rw [getUndoLogOptional, prevTxn, present, Option.bind_some] at found
  refine ⟨link.prevLogIdx, (List.getElem?_eq_some_iff.mp found).1, ?_⟩
  rw [← prevTxn]
 have perm : (db.manager.allCounted.filter fun link => link.prevTxn = id).Perm
  ((List.range txn.undoLogs.length).map fun index => ⟨id, index⟩) := by
  refine (perm_ext_iff_of_nodup (sound.chained.allCounted_nodup.filter _) ?_).mpr ?_
  · refine List.Nodup.map (fun first second same => ?_) nodup_range
    cases same
    rfl
  · intro link
    constructor
    · grind
    · grind
 rw [countP_eq_length_filter, perm.length_eq, length_map, length_range]

/-- An ended transaction whose logs are all counted. -/
def Gone (manager : TransactionManager Value) (txn : Transaction Value) : Prop :=
 (∀ index < txn.undoLogs.length, ⟨txn.txnId, index⟩ ∈ manager.allCounted) ∧
  (txn.state = .committed ∨ txn.state = .aborted)

/-- What the collector leaves: everything but the transactions that are gone. -/
structure Swept (manager after : TransactionManager Value) : Prop where
 versionInfo : after.versionInfo = manager.versionInfo
 tables : after.tables = manager.tables
 watermark : after.watermark = manager.watermark
 txnMap : ∀ id txn, after.txnMap id = some txn ↔
  manager.txnMap id = some txn ∧ ¬ Gone manager txn

theorem Sound.garbageCollection_spec (sound : db.Sound) :
 ∃ after, db.manager.garbageCollection = some after ∧ Swept db.manager after := by
 unfold garbageCollection
 rw [countTables_eq sound.chained]
 refine ⟨_, rfl, rfl, rfl, rfl, fun id txn => ?_⟩
 rw [Option.filter_eq_some_iff]
 refine and_congr_right fun present => ?_
 have own := (sound.keyed id txn present).1
 rw [not_eq_true', ← not_eq_true, and_eq_true, decide_eq_true_iff,
  or_eq_true, decide_eq_true_iff, decide_eq_true_iff, own]
 refine not_congr (and_congr_left fun _ => ?_)
 rw [own]
 constructor
 · intro count index bound
   exact sound.chained.counted_of_count present count bound
 · exact sound.count_eq present

theorem Sound.stampOf_le (sound : db.Sound) (present : db.manager.txnMap id = some txn)
 (low : db.stampOf id ≤ db.lastCommitTs) :
 txn.state = .committed := by
 by_contra unfinished
 unfold stampOf transactionTempTs at low
 rw [stateOf_of_some present, if_neg fun same => unfinished (Option.some.inj same)] at low
 have bound := sound.bound
 have started := (sound.keyed id txn present).2.1
 omega

theorem Sound.gone_of_old (sound : db.Sound) (points : db.manager.Points place link ts)
 (found : db.manager.shape link = some behind) (old : ts ≤ db.manager.watermark) :
 ∀ txn, db.manager.txnMap link.prevTxn = some txn → Gone db.manager txn := by
 intro txn present
 have stamp := (sound.stamped _ _ _ _ points found).2
 constructor
 · intro index bound
   rw [(sound.keyed _ _ present).1]
   have stored : (db.manager.shape ⟨link.prevTxn, index⟩).isSome = true := by
    unfold shape getUndoLogOptional
    rw [present, Option.bind_some, getElem?_eq_getElem bound]
    rfl
   obtain ⟨otherBehind, otherFound⟩ := Option.isSome_iff_exists.mp stored
   obtain ⟨otherPlace, otherTs, otherPoints⟩ := sound.reached _ stored
   rw [sound.mem_allCounted_iff otherPoints otherFound,
    ← (sound.stamped _ _ _ _ otherPoints otherFound).2, stamp]
   exact old
 · left
   apply sound.stampOf_le present
   rw [stamp]
   exact old.trans sound.watermark

namespace Swept

variable {after : TransactionManager Value} {link : UndoLink} {behind : ℕ × UndoLink}

variable (swept : Swept db.manager after)
include swept

theorem stamps : after.stamps = db.manager.stamps := by
 unfold TransactionManager.stamps TransactionManager.heap
 rw [swept.tables]

theorem stateOf {state : TransactionState} (found : after.stateOf id = some state) :
 db.manager.stateOf id = some state := by
 obtain ⟨txn, present, isState⟩ := Option.map_eq_some_iff.mp found
 rw [← isState]
 exact stateOf_of_some ((swept.txnMap id txn).mp present).1

theorem shape (found : after.shape link = some behind) :
 db.manager.shape link = some behind ∧
  db.manager.stateOf link.prevTxn = after.stateOf link.prevTxn := by
 obtain ⟨txn, undoLog, present, log, same⟩ := shape_eq_some found
 have before := ((swept.txnMap _ txn).mp present).1
 constructor
 · rw [same]
   apply shape_of_log
   rw [getUndoLogOptional, before]
   exact log
 · rw [stateOf_of_some before, stateOf_of_some present]

theorem stays (found : db.manager.shape link = some behind)
 (present : db.manager.txnMap link.prevTxn = some txn) (kept : ¬ Gone db.manager txn) :
 after.shape link = some behind := by
 obtain ⟨again, undoLog, presentAgain, log, same⟩ := shape_eq_some found
 rw [present] at presentAgain
 cases presentAgain
 rw [same]
 apply shape_of_log
 rw [getUndoLogOptional, (swept.txnMap _ txn).mpr ⟨present, kept⟩]
 exact log

theorem points (before : after.Points place link ts) : db.manager.Points place link ts := by
 cases before with
 | head stored linked => exact .head (swept.stamps ▸ stored) (swept.versionInfo ▸ linked)
 | log found => exact .log (swept.shape found).1

theorem reached (sound : db.Sound) (isBehind : after.shape link = some behind) :
 ∃ place ts, after.Points place link ts := by
 have before := (swept.shape isBehind).1
 obtain ⟨place, ts, pointed⟩ := sound.reached link (by rw [before]; rfl)
 cases pointed with
 | head stored linked =>
  exact ⟨_, _, .head (swept.stamps ▸ stored) (swept.versionInfo ▸ linked)⟩
 | @log own link ts ownFound =>
  obtain ⟨txn, undoLog, present, log, same⟩ := shape_eq_some ownFound
  refine ⟨.inr own, ts, .log (swept.stays ownFound present fun gone => ?_)⟩
  obtain ⟨ownPlace, ownTs, ownPoints⟩ := sound.reached own (by rw [ownFound]; rfl)
  have counted : own ∈ db.manager.allCounted := by
   have inLogs := gone.1 own.prevLogIdx (List.getElem?_eq_some_iff.mp log).1
   rw [(sound.keyed _ _ present).1] at inLogs
   exact inLogs
  have low := (sound.mem_allCounted_iff ownPoints ownFound).mp counted
  have older := (sound.stamped _ _ _ _ ownPoints ownFound).1
  obtain ⟨holder, -, holds, -⟩ := shape_eq_some isBehind
  obtain ⟨held, kept⟩ := (swept.txnMap _ holder).mp holds
  exact kept (sound.gone_of_old (.log ownFound) before (by dsimp only at older; omega) holder
   held)

end Swept

theorem Sound.collect (sound : db.Sound) {after : TransactionManager Value}
 (done : db.manager.garbageCollection = some after) :
 Sound { db with manager := after } := by
 obtain ⟨result, same, swept⟩ := sound.garbageCollection_spec
 rw [done] at same
 cases same
 refine
  { keyed := fun id txn present => sound.keyed id txn ((swept.txnMap id txn).mp present).1
    next := sound.next
    bound := sound.bound
    reads := sound.reads
    readTs := sound.readTs
    watermark := swept.watermark ▸ sound.watermark
    commits := fun id committed => sound.commits id (swept.stateOf committed)
    rids := swept.stamps ▸ sound.rids
    begun := fun place link ts before => sound.begun place link ts (swept.points before)
    within := ?_
    stamped := ?_
    unique := ?_
    reached := ?_
    logs := fun link behind found => sound.logs link behind (swept.shape found).1
    written := fun rid ts stored => sound.written rid ts (swept.stamps ▸ stored)
    writeSets := fun id rid running =>
     swept.stamps ▸ sound.writeSets id rid (swept.stateOf running)
    owned := fun id rid link running stored linked =>
     sound.owned id rid link (swept.stateOf running) (swept.stamps ▸ stored)
      (swept.versionInfo ▸ linked) }
 · intro place link ts before present
   obtain ⟨txn, here⟩ := exists_of_isSome_stateOf present
   obtain ⟨old, kept⟩ := (swept.txnMap _ txn).mp here
   have isSome := sound.within place link ts (swept.points before)
    (by rw [stateOf_of_some old]; rfl)
   obtain ⟨behind, found⟩ := Option.isSome_iff_exists.mp isSome
   rw [show after.shape link = some behind from swept.stays found old kept]
   rfl
 · intro place link ts behind before found
   obtain ⟨foundBefore, sameState⟩ := swept.shape found
   have stamped := sound.stamped place link ts behind (swept.points before) foundBefore
   refine ⟨stamped.1, ?_⟩
   rw [← stamped.2]
   unfold stampOf
   rw [sameState]
 · intro place other link ts otherTs first second found
   obtain ⟨behind, isBehind⟩ := Option.isSome_iff_exists.mp found
   refine sound.unique place other link ts otherTs (swept.points first) (swept.points second) ?_
   rw [(swept.shape isBehind).1]
   rfl
 · intro link found
   obtain ⟨behind, isBehind⟩ := Option.isSome_iff_exists.mp found
   exact swept.reached sound isBehind

end Database

end MyNotes.Cmu15445
