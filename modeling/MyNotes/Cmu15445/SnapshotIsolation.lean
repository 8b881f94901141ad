/-
What a run of transactions promises about the slots that they write.

The statements of the transactions run one at a time: no other transaction writes a tuple between
the check of a statement for conflicts and its own write.  Then two transactions that commit
versions of one slot cannot overlap, as the later one would have found a conflict.
-/

import MyNotes.Cmu15445.TransactionRuns

namespace MyNotes.Cmu15445

open Library.Transition Function List

variable {Value : Type}

namespace Database

open TransactionManager

variable {db next : Database Value} {txn : Transaction Value} {id : TxnId} {rid : RID}
 {event : TxnEvent Value}

/-- Of two transactions that write one slot, one began after the other had committed; a
transaction that has not committed has the timestamp 0. -/
structure Isolated (db : Database Value) : Prop where
 stored : ∀ id rid, rid ∈ db.writeSet id →
  ∃ ts, (rid, ts) ∈ db.manager.stamps ∧ db.commitTs id ≤ ts
 ended : ∀ id, 0 < db.commitTs id → db.manager.stateOf id ≠ some .running ∧ id < db.nextTxnId
 bound : ∀ id, db.commitTs id ≤ db.lastCommitTs
 readers : ∀ id reader rid, rid ∈ db.writeSet id → rid ∈ db.writeSet reader →
  db.manager.stateOf reader = some .running → db.commitTs id ≤ db.readTs reader
 ordered : ∀ first second rid, first ≠ second → rid ∈ db.writeSet first →
  rid ∈ db.writeSet second →
   db.commitTs first ≤ db.readTs second ∨ db.commitTs second ≤ db.readTs first

theorem start_isolated (tableCount : ℕ) : (start tableCount : Database Value).Isolated where
 stored _ _ member := absurd member not_mem_nil
 ended _ committed := absurd committed (Nat.lt_irrefl 0)
 bound _ := Nat.le_refl 0
 readers _ _ _ _ _ _ := Nat.zero_le _
 ordered _ _ _ _ _ _ := .inl (Nat.zero_le _)

section

variable (isolated : db.Isolated)
include isolated

/-- No slot changes, and a transaction that begins has no writes. -/
theorem Isolated.quiet (stamps : next.manager.stamps = db.manager.stamps)
 (commitTs : next.commitTs = db.commitTs) (lastCommitTs : next.lastCommitTs = db.lastCommitTs)
 (nextTxnId : db.nextTxnId ≤ next.nextTxnId)
 (cases : ∀ id : TxnId, id = db.nextTxnId ∧ next.writeSet id = [] ∨
  next.writeSet id = db.writeSet id ∧ next.readTs id = db.readTs id ∧
   (next.manager.stateOf id = some .running → db.manager.stateOf id = some .running)) :
 next.Isolated := by
 have old : ∀ {id rid}, rid ∈ next.writeSet id → rid ∈ db.writeSet id ∧
  next.readTs id = db.readTs id ∧
   (next.manager.stateOf id = some .running → db.manager.stateOf id = some .running) := by
  intro id rid member
  rcases cases id with ⟨-, empty⟩ | ⟨same, rest⟩
  · rw [empty] at member
    cases member
  · exact ⟨same ▸ member, rest⟩
 constructor <;> simp only [stamps, commitTs, lastCommitTs]
 · exact fun id rid member => isolated.stored id rid (old member).1
 · intro id committed
   obtain ⟨still, below⟩ := isolated.ended id committed
   refine ⟨fun now => ?_, below.trans_le (Int.ofNat_le.mpr nextTxnId)⟩
   rcases cases id with ⟨fresh, -⟩ | ⟨-, -, running⟩
   · exact absurd fresh below.ne
   · exact still (running now)
 · exact isolated.bound
 · intro id reader rid member reads now
   obtain ⟨before, same, running⟩ := old reads
   rw [same]
   exact isolated.readers id reader rid (old member).1 before (running now)
 · intro first second rid different one two
   rw [(old one).2.1, (old two).2.1]
   exact isolated.ordered first second rid different (old one).1 (old two).1

variable (sound : db.Sound)
include sound

/-- A running transaction writes a slot whose versions had all committed when it began. -/
theorem Isolated.write {manager : TransactionManager Value}
 (running : db.manager.stateOf id = some .running)
 (seen : ∀ other, rid ∈ db.writeSet other → db.commitTs other ≤ db.readTs id)
 (stamps : ∀ slot ts, (slot, ts) ∈ manager.stamps ↔
  slot ≠ rid ∧ (slot, ts) ∈ db.manager.stamps ∨ slot = rid ∧ ts = transactionTempTs id)
 (state : ∀ id, manager.stateOf id = db.manager.stateOf id) :
 (appendWriteSet { db with manager := manager } id rid).Isolated := by
 have members : ∀ {other slot},
  slot ∈ (appendWriteSet { db with manager := manager } id rid).writeSet other ↔
   other = id ∧ slot = rid ∨ slot ∈ db.writeSet other := mem_appendWriteSet
 have zero : db.commitTs id = 0 := Nat.eq_zero_of_not_pos fun committed =>
  (isolated.ended id committed).1 running
 have old : ∀ {other slot},
  slot ∈ (appendWriteSet { db with manager := manager } id rid).writeSet other →
   db.commitTs other = 0 ∨ slot ∈ db.writeSet other := fun member =>
   (members.mp member).imp_left fun own => (congrArg _ own.1).trans zero
 refine ⟨fun other slot member => ?_, fun other committed => ?_, isolated.bound,
  fun other reader slot member reads now => ?_, fun first second slot different one two => ?_⟩
 · by_cases here : slot = rid
   · exact ⟨_, (stamps slot _).mpr (.inr ⟨here, rfl⟩),
      (isolated.bound other).trans (sound.lastCommitTs_lt running).le⟩
   · obtain ⟨ts, before, le⟩ := isolated.stored other slot
      ((members.mp member).resolve_left fun own => here own.2)
     exact ⟨ts, (stamps slot ts).mpr (.inl ⟨here, before⟩), le⟩
 · obtain ⟨still, below⟩ := isolated.ended other committed
   exact ⟨fun now => still ((state other).symm.trans now), below⟩
 · rcases old member with none | member
   · exact none.trans_le (Nat.zero_le _)
   · rcases members.mp reads with ⟨isId, isRid⟩ | before
     · rw [isId]
       exact seen other (isRid ▸ member)
     · exact isolated.readers other reader slot member before ((state reader).symm.trans now)
 · rcases old one with none | one
   · exact .inl (none.trans_le (Nat.zero_le _))
   · rcases old two with none | two
     · exact .inr (none.trans_le (Nat.zero_le _))
     · exact isolated.ordered first second slot different one two

theorem Isolated.commitTxn (present : db.manager.txnMap txn.txnId = some txn)
 (running : db.manager.stateOf txn.txnId = some .running) : (db.commitTxn txn).Isolated := by
 have stamps := sound.stamps_commitTxn running
 have own : (db.commitTxn txn).commitTs txn.txnId = db.lastCommitTs + 1 := update_self _ _ _
 have others : ∀ {id}, id ≠ txn.txnId → (db.commitTxn txn).commitTs id = db.commitTs id :=
  fun different => update_of_ne different _ _
 have temp : ∀ rid, rid ∈ db.writeSet txn.txnId →
  (rid, transactionTempTs txn.txnId) ∈ db.manager.stamps := fun rid =>
  (sound.writeSets txn.txnId rid running).mp
 refine ⟨fun id rid member => ?_, fun id committed => ?_, fun id => ?_,
  fun id reader rid member reads now => ?_, fun first second rid different one two => ?_⟩
 · obtain ⟨ts, before, le⟩ := isolated.stored id rid member
   rw [stamps]
   refine ⟨_, mem_map_of_mem before, ?_⟩
   rw [commitStamp]
   by_cases isOwn : id = txn.txnId
   · rw [isOwn, own, if_pos (sound.ts_unique before (temp rid (isOwn ▸ member)))]
   · rw [others isOwn]
     split
     · exact (isolated.bound id).trans (Nat.le_succ _)
     · exact le
 · rw [stateOf_commitTxn]
   by_cases isOwn : id = txn.txnId
   · rw [if_pos isOwn, isOwn]
     exact ⟨by decide, (sound.keyed _ _ present).2.2⟩
   · rw [others isOwn] at committed
     rw [if_neg isOwn]
     exact isolated.ended id committed
 · by_cases isOwn : id = txn.txnId
   · rw [isOwn, own]
     rfl
   · rw [others isOwn]
     exact (isolated.bound id).trans (Nat.le_succ _)
 -- a running reader that has written the slot would hold its version, and so does the transaction
 · obtain ⟨notOwn, before⟩ := running_of_commitTxn now
   by_cases isOwn : id = txn.txnId
   · have both := sound.ts_unique (temp rid (isOwn ▸ member))
      ((sound.writeSets reader rid before).mp reads)
     exact absurd (sound.temp_injective running (sound.started before) both.symm) notOwn
   · rw [others isOwn]
     exact isolated.readers id reader rid member reads before
 · by_cases isFirst : first = txn.txnId
   · rw [others fun same => different (isFirst.trans same.symm), isFirst]
     exact .inr (isolated.readers second _ rid two (isFirst ▸ one) running)
   · rw [others isFirst]
     by_cases isSecond : second = txn.txnId
     · rw [isSecond]
       exact .inl (isolated.readers first _ rid one (isSecond ▸ two) running)
     · rw [others isSecond]
       exact isolated.ordered first second rid different one two

theorem Isolated.step (stepped : Stepped db event next) : next.Isolated := by
 cases stepped with
 | begin =>
  refine isolated.quiet rfl rfl rfl (Nat.le_succ _) fun id => ?_
  by_cases fresh : id = db.nextTxnId
  · rw [fresh]
    exact .inl ⟨rfl, update_self _ _ _⟩
  · refine .inr ⟨update_of_ne fresh _ _, update_of_ne fresh _ _, fun now => ?_⟩
    exact ((stateOf_setTransaction _ _).trans (if_neg fresh)).symm.trans now
 | @insert id table rid running inside free =>
  have unused := not_mem_of_getTupleMeta free
  have perm : (db.insertTuple id table rid).manager.stamps.Perm
   ((rid, transactionTempTs id) :: db.manager.stamps) := (flatten_modify_perm _ _ inside).map _
  refine isolated.write sound running (fun other wrote => ?_) (fun slot ts => ?_) fun _ => rfl
  · obtain ⟨ts, stored, -⟩ := isolated.stored other rid wrote
    exact absurd stored (unused ts)
  · refine perm.mem_iff.trans ?_
    rw [mem_cons, Prod.mk.injEq, or_comm]
    exact or_congr_left ⟨fun stored => ⟨fun same => unused ts (same ▸ stored), stored⟩, And.right⟩
 | taint present running =>
  refine isolated.quiet rfl rfl rfl (Nat.le_refl _) fun id => .inr ⟨rfl, rfl, fun now => ?_⟩
  rw [stateOf_setTransaction] at now
  split at now
  · cases now
  · exact now
 | @modify txn rid isDeleted fields tuple tupleMeta present running found noConflict =>
  have isRunning : db.manager.stateOf txn.txnId = some .running := by
   rw [stateOf_of_some present, running]
  obtain ⟨tables, -, state⟩ := modifyTuple_kept present rid tupleMeta isDeleted fields tuple
  have stored := mem_of_getTupleMeta found
  refine isolated.write sound isRunning (fun other wrote => ?_) (fun slot ts => ?_) state
  -- the version that is overwritten is the newest one of the slot
  · obtain ⟨ts, newest, le⟩ := isolated.stored other rid wrote
    obtain rfl := sound.ts_unique newest stored
    by_cases own : tupleMeta.ts = transactionTempTs txn.txnId
    · exact isolated.readers other _ rid wrote
       ((sound.writeSets _ rid isRunning).mpr (own ▸ stored)) isRunning
    · simp [writeWriteConflict, own] at noConflict
      omega
  · change (slot, ts) ∈
     (db.modifyTuple txn rid tupleMeta isDeleted fields tuple).manager.stamps ↔ _
    rw [stamps, heap, tables]
    exact mem_stamps_update stored
 | commit present running small =>
  exact isolated.commitTxn sound present (by rw [stateOf_of_some present, running])
 | @abort txn present active =>
  refine isolated.quiet rfl rfl rfl (Nat.le_refl _) fun id => .inr ⟨rfl, rfl, fun now => ?_⟩
  have state : (db.finish txn .aborted).manager.stateOf id =
   if id = txn.txnId then some .aborted else db.manager.stateOf id := stateOf_setTransaction _ _
  rw [state] at now
  split at now
  · cases now
  · exact now
 | collect done =>
  obtain ⟨after, again, swept⟩ := sound.garbageCollection_spec
  obtain rfl := Option.some.inj (done.symm.trans again)
  exact isolated.quiet swept.stamps rfl rfl (Nat.le_refl _) fun id =>
   .inr ⟨rfl, rfl, fun now => swept.stateOf now⟩

end

variable {tableCount : ℕ} {events : List (TxnEvent Value)} {first second : TxnId}

theorem isolated_of_run (run : Run (ofFunction Database.step) (start tableCount) events db) :
 db.Isolated :=
 run.history (start_isolated tableCount) fun _ _ _ _ before isolated taken =>
  Isolated.step isolated (sound_of_run before) ((sound_of_run before).stepped taken)

/-- No update is lost: of two transactions that write one slot and commit, one began after the
other had committed. -/
theorem no_lost_update (run : Run (ofFunction Database.step) (start tableCount) events db)
 (different : first ≠ second) (firstWrote : rid ∈ db.writeSet first)
 (secondWrote : rid ∈ db.writeSet second) :
 db.commitTs first ≤ db.readTs second ∨ db.commitTs second ≤ db.readTs first :=
 (isolated_of_run run).ordered first second rid different firstWrote secondWrote

/-- Three writers of one slot and one of another; the last two are still running. -/
def updates : List (TxnEvent ℕ) :=
 [.begin, .insert txnStartId 0 ⟨0, 0⟩, .commit txnStartId, .begin,
  .modify (txnStartId + 1) ⟨0, 0⟩ false [] [], .commit (txnStartId + 1), .begin, .begin,
  .modify (txnStartId + 2) ⟨0, 0⟩ true [] [], .insert (txnStartId + 3) 0 ⟨0, 1⟩]

theorem no_lost_update_updates : ∃ db, replay Database.step (start 1) updates = some db ∧
 (db.commitTs txnStartId ≤ db.readTs (txnStartId + 1) ∨
  db.commitTs (txnStartId + 1) ≤ db.readTs txnStartId) := by
 have final : (replay Database.step (start 1) updates).map (fun db =>
  (db.writeSet txnStartId, db.writeSet (txnStartId + 1))) = some ([⟨0, 0⟩], [⟨0, 0⟩]) := by
  decide +kernel
 obtain ⟨db, replayed, same⟩ := Option.map_eq_some_iff.mp final
 obtain ⟨first, second⟩ := Prod.mk.inj same
 refine ⟨db, replayed, @no_lost_update _ _ ⟨0, 0⟩ _ _ _ _ (Run.of_replay_all replayed)
  (by decide) ?_ ?_⟩
 · rw [first]
   exact mem_singleton_self _
 · rw [second]
   exact mem_singleton_self _

/-- No write is dirty: of the writers of one slot, one at most is running. -/
theorem no_dirty_write (run : Run (ofFunction Database.step) (start tableCount) events db)
 (different : first ≠ second) (firstRuns : db.manager.stateOf first = some .running)
 (secondRuns : db.manager.stateOf second = some .running) :
 (db.writeSet first).Disjoint (db.writeSet second) := by
 have sound := sound_of_run run
 intro rid firstWrote secondWrote
 have one := (sound.writeSets first rid firstRuns).mp firstWrote
 have two := (sound.writeSets second rid secondRuns).mp secondWrote
 exact different (sound.temp_injective secondRuns (sound.started firstRuns)
  (sound.ts_unique one two))

theorem no_dirty_write_updates : ∃ db, replay Database.step (start 1) updates = some db ∧
 (db.writeSet (txnStartId + 2)).Disjoint (db.writeSet (txnStartId + 3)) := by
 have final : (replay Database.step (start 1) updates).map (fun db =>
  (db.manager.stateOf (txnStartId + 2), db.manager.stateOf (txnStartId + 3))) =
   some (some .running, some .running) := by
  decide +kernel
 obtain ⟨db, replayed, same⟩ := Option.map_eq_some_iff.mp final
 obtain ⟨first, second⟩ := Prod.mk.inj same
 exact ⟨db, replayed, no_dirty_write (Run.of_replay_all replayed) (by decide) first second⟩

end Database

end MyNotes.Cmu15445
