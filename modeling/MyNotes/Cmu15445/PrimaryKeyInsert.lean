/-
Inserts into a table with a primary key, project 4.

Threads run one insert each, and their calls of the index and of the table heap come in
any order.  `InsertEntry` fails when the key is there, and may fail for want of room.
-/

import MyNotes.Library.Transition
import MyNotes.Cmu15445.TableHeap

namespace MyNotes.Cmu15445

open Library.Transition Function List HashTableIndex

abbrev ThreadId := ℕ

/-- Where an insert is; `tempRid` is the slot that it has got. -/
inductive InsertStage where
 | scanned
 | stored (tempRid : RID)
 | refused (tempRid : RID)
 | entered (tempRid : RID)
 deriving DecidableEq

def InsertStage.slot : InsertStage → Option RID
 | .scanned => none
 | .stored tempRid => some tempRid
 | .refused tempRid => some tempRid
 | .entered tempRid => some tempRid

def InsertStage.waiting : InsertStage → Option RID
 | .stored tempRid => some tempRid
 | .refused tempRid => some tempRid
 | _ => none

structure PendingInsert (Row : Type) where
 txn : TxnId
 childTuple : Row
 childRid : RID
 stage : InsertStage

structure PrimaryKeyTable (Row Key : Type) where
 table : TableHeap Row
 index : HashTableIndex Row Key
 pending : ThreadId → Option (PendingInsert Row)
 versionInfo : RID → Option UndoLink
 writeSet : List (TxnId × RID)
 tainted : List TxnId

/-- The calls of an insert; `tempRid` is what the table heap returns, and `room` says whether
the index can take another entry. -/
inductive InsertEvent (Row : Type) where
 | scanKey (thread : ThreadId) (txn : TxnId) (childTuple : Row) (childRid : RID)
 | insertTuple (thread : ThreadId) (tempRid : Option RID)
 | insertEntry (thread : ThreadId) (room : Bool)
 | updateTupleMeta (thread : ThreadId)
 | finish (thread : ThreadId)

namespace PrimaryKeyTable

variable {Row Key : Type} [DecidableEq Key]

def start (keyFromTuple : Row → Key) : PrimaryKeyTable Row Key :=
 { table := []
   index := ⟨keyFromTuple, fun _ => none⟩
   pending := fun _ => none
   versionInfo := fun _ => none
   writeSet := []
   tainted := [] }

def setPending (self : PrimaryKeyTable Row Key) (thread : ThreadId)
 (insert : Option (PendingInsert Row)) : PrimaryKeyTable Row Key :=
 { self with pending := update self.pending thread insert }

def keyOf (self : PrimaryKeyTable Row Key) (tuple : Row) : Key := self.index.keyFromTuple tuple

/-- `InsertEntry` gets the record id that the child has returned with the tuple. -/
def insertEntry (self : PrimaryKeyTable Row Key) (thread : ThreadId) (insert : PendingInsert Row)
 (tempRid : RID) (room : Bool) : PrimaryKeyTable Row Key :=
 if room = true ∧ self.index.entries (self.keyOf insert.childTuple) = none then
  setPending { self with
   index := self.index.insertEntry (self.keyOf insert.childTuple) insert.childRid }
   thread (some { insert with stage := .entered tempRid })
 else self.setPending thread (some { insert with stage := .refused tempRid })

section

variable (self : PrimaryKeyTable Row Key)

def step : InsertEvent Row → Option (PrimaryKeyTable Row Key)
 | .scanKey thread txn childTuple childRid =>
  match self.pending thread with
  | some _ => none
  | none =>
   if (self.index.scanKey (self.keyOf childTuple)).isEmpty then
    some (self.setPending thread (some ⟨txn, childTuple, childRid, .scanned⟩))
   else some { self with tainted := txn :: self.tainted }
 | .insertTuple thread tempRid =>
  match self.pending thread with
  | some ⟨txn, childTuple, childRid, .scanned⟩ =>
   match tempRid with
   | none => some (self.setPending thread none)
   | some tempRid =>
    if tempRid ∈ self.table.rids then none
    else
     some (setPending { self with
      table := self.table.insertTuple tempRid ⟨txn.toNat, false⟩ childTuple }
      thread (some ⟨txn, childTuple, childRid, .stored tempRid⟩))
  | _ => none
 | .insertEntry thread room =>
  match self.pending thread with
  | some ⟨txn, childTuple, childRid, .stored tempRid⟩ =>
   some (self.insertEntry thread ⟨txn, childTuple, childRid, .stored tempRid⟩ tempRid room)
  | _ => none
 | .updateTupleMeta thread =>
  match self.pending thread with
  | some ⟨txn, _, _, .refused tempRid⟩ =>
   some (setPending { self with
    table := self.table.updateTupleMeta ⟨txn.toNat, true⟩ tempRid
    tainted := txn :: self.tainted } thread none)
  | _ => none
 | .finish thread =>
  match self.pending thread with
  | some ⟨txn, _, _, .entered tempRid⟩ =>
   some (setPending { self with
    versionInfo := update self.versionInfo tempRid (some ⟨invalidTxnId, 0⟩)
    writeSet := (txn, tempRid) :: self.writeSet } thread none)
  | _ => none

/-- A slot whose insert has not reached the outcome of `InsertEntry`, or has not undone it. -/
def Waiting (rid : RID) : Prop :=
 ∃ thread insert, self.pending thread = some insert ∧ insert.stage.waiting = some rid

/-- A slot whose insert has created an index entry. -/
def Entered (rid : RID) : Prop :=
 (∃ txn, (txn, rid) ∈ self.writeSet) ∨
  ∃ thread insert, self.pending thread = some insert ∧ insert.stage = .entered rid

end

/-- Index and heap are in step; the slots of inserts that are not through are left out. -/
structure InStep (state : PrimaryKeyTable Row Key) : Prop where
 entries : ∀ key rid, state.index.entries key = some rid →
  ∃ stored ∈ state.table, stored.rid = rid ∧ state.keyOf stored.tuple = key
 reachable : ∀ txn rid, (txn, rid) ∈ state.writeSet →
  ∃ tuple, state.table.Live rid tuple ∧ state.index.entries (state.keyOf tuple) = some rid
 refused : ∀ stored ∈ state.table, ¬ state.Waiting stored.rid → ¬ state.Entered stored.rid →
  stored.tupleMeta.isDeleted = true
 unique : ∀ rid other tuple otherTuple, state.table.Live rid tuple →
  state.table.Live other otherTuple → ¬ state.Waiting rid → ¬ state.Waiting other →
   state.keyOf tuple = state.keyOf otherTuple → rid = other

/-- Where an entry is created, the child has returned the record id of the slot. -/
def Matched (self : PrimaryKeyTable Row Key) : InsertEvent Row → Prop
 | .insertEntry thread room => ∀ insert ∈ self.pending thread, room = true →
  self.index.entries (self.keyOf insert.childTuple) = none →
   insert.stage = .stored insert.childRid
 | _ => True

instance (table : PrimaryKeyTable Row Key) (event : InsertEvent Row) :
 Decidable (table.Matched event) :=
 match event with
 | .insertEntry thread room => inferInstanceAs (Decidable (∀ insert ∈ table.pending thread,
  room = true → table.index.entries (table.keyOf insert.childTuple) = none →
   insert.stage = .stored insert.childRid))
 | .scanKey _ _ _ _ => .isTrue trivial
 | .insertTuple _ _ => .isTrue trivial
 | .updateTupleMeta _ => .isTrue trivial
 | .finish _ => .isTrue trivial

/-! ### The slots of the inserts -/

variable {self : PrimaryKeyTable Row Key}

def AtStage (self : PrimaryKeyTable Row Key) (holds : InsertStage → Prop) : Prop :=
 ∃ thread insert, self.pending thread = some insert ∧ holds insert.stage

def Elsewhere (self : PrimaryKeyTable Row Key) (thread : ThreadId) (holds : InsertStage → Prop) :
 Prop :=
 ∃ other insert, other ≠ thread ∧ self.pending other = some insert ∧ holds insert.stage

variable {thread : ThreadId}

omit [DecidableEq Key] in
theorem atStage_iff {holds : InsertStage → Prop} :
 self.AtStage holds ↔ (∃ insert, self.pending thread = some insert ∧ holds insert.stage) ∨
  self.Elsewhere thread holds := by
 constructor
 · intro stage
   obtain ⟨other, insert, present, held⟩ := stage
   by_cases own : other = thread
   · exact .inl ⟨insert, own ▸ present, held⟩
   · exact .inr ⟨other, insert, own, present, held⟩
 · intro either
   rcases either with ⟨insert, present, held⟩ | ⟨other, insert, -, present, held⟩
   · exact ⟨thread, insert, present, held⟩
   · exact ⟨other, insert, present, held⟩

variable {holds : InsertStage → Prop}

omit [DecidableEq Key] in
theorem atStage_of_some {insert : PendingInsert Row} (present : self.pending thread = some insert) :
 self.AtStage holds ↔ holds insert.stage ∨ self.Elsewhere thread holds := by
 rw [atStage_iff, present]
 simp

omit [DecidableEq Key] in
theorem atStage_of_none (absent : self.pending thread = none) :
 self.AtStage holds ↔ self.Elsewhere thread holds := by
 rw [atStage_iff, absent]
 exact or_iff_right fun impossible => by
  simp_all

variable {rid : RID}

section

omit [DecidableEq Key]

theorem entered_iff : self.Entered rid ↔
 (∃ txn, (txn, rid) ∈ self.writeSet) ∨ self.AtStage fun stage => stage = .entered rid :=
 Iff.rfl

theorem waiting_iff :
 self.Waiting rid ↔ self.AtStage fun stage => stage.waiting = some rid :=
 Iff.rfl

theorem elsewhere_congr {next : PrimaryKeyTable Row Key} {insert : Option (PendingInsert Row)}
 (pending : next.pending = update self.pending thread insert) (holds : InsertStage → Prop) :
 next.Elsewhere thread holds ↔ self.Elsewhere thread holds := by
 unfold Elsewhere
 rw [pending]
 refine exists_congr fun other => exists_congr fun found => and_congr_right fun different => ?_
 rw [update_of_ne different]

end

/-- Slots have one insert each, and no slot is both under way and in a write set. -/
structure Ordered (state : PrimaryKeyTable Row Key) : Prop where
 nodup : state.table.rids.Nodup
 held : ∀ thread insert rid, state.pending thread = some insert → insert.stage.slot = some rid →
  state.table.Live rid insert.childTuple ∧ ∀ txn, (txn, rid) ∉ state.writeSet
 apart : ∀ thread other insert otherInsert rid, state.pending thread = some insert →
  state.pending other = some otherInsert → insert.stage.slot = some rid →
   otherInsert.stage.slot = some rid → thread = other
 written : ∀ txn rid, (txn, rid) ∈ state.writeSet → ∃ tuple, state.table.Live rid tuple
 classified : ∀ rid tuple, state.table.Live rid tuple → state.Waiting rid ∨ state.Entered rid

/-- The index as it would be with the slots that the inserts have got. -/
structure Owner (state : PrimaryKeyTable Row Key) (owner : HashTableIndex Row Key) : Prop where
 keyFromTuple : owner.keyFromTuple = state.index.keyFromTuple
 isSome : ∀ key, (owner.entries key).isSome = (state.index.entries key).isSome
 represents : owner.Represents fun rid tuple => state.Entered rid ∧ state.table.Live rid tuple

omit [DecidableEq Key] in
theorem start_ordered (keyFromTuple : Row → Key) : (start keyFromTuple).Ordered where
 nodup := nodup_nil
 held _ _ _ impossible := by cases impossible
 apart _ _ _ _ _ impossible := by cases impossible
 written _ _ impossible := by cases impossible
 classified _ _ live := by cases live.mem_rids

omit [DecidableEq Key] in
theorem start_owner (keyFromTuple : Row → Key) :
 (start keyFromTuple).Owner (start keyFromTuple).index := by
 refine ⟨rfl, fun _ => rfl, fun key rid => iff_of_false (fun impossible => ?_) fun held => ?_⟩
 · cases impossible
 · obtain ⟨tuple, ⟨-, live⟩, -⟩ := held
   cases live.mem_rids

section Steps

variable {after : PrimaryKeyTable Row Key} {thread : ThreadId}
variable {insert : Option (PendingInsert Row)}

section

omit [DecidableEq Key]

theorem Ordered.next (ordered : self.Ordered)
 (pending : after.pending = update self.pending thread insert)
 (own : ∀ new rid, insert = some new → new.stage.slot = some rid →
  after.table.Live rid new.childTuple ∧ (∀ txn, (txn, rid) ∉ after.writeSet) ∧
   ¬ self.Elsewhere thread fun stage => stage.slot = some rid)
 (others : ∀ rid tuple, (self.Elsewhere thread fun stage => stage.slot = some rid) →
  self.table.Live rid tuple → (∀ txn, (txn, rid) ∉ self.writeSet) →
   after.table.Live rid tuple ∧ ∀ txn, (txn, rid) ∉ after.writeSet)
 (nodup : after.table.rids.Nodup)
 (written : ∀ txn rid, (txn, rid) ∈ after.writeSet → ∃ tuple, after.table.Live rid tuple)
 (classified : ∀ rid tuple, after.table.Live rid tuple → after.Waiting rid ∨ after.Entered rid) :
 after.Ordered := by
 have split : ∀ {other found}, after.pending other = some found →
  (other = thread ∧ insert = some found) ∨
   (other ≠ thread ∧ self.pending other = some found) := by
  intro other found present
  rw [pending] at present
  by_cases here : other = thread
  · simp_all
  · simp_all
 refine ⟨nodup, ?_, ?_, written, classified⟩
 · intro other found rid present slot
   rcases split present with ⟨-, new⟩ | ⟨different, old⟩
   · simp_all
   · obtain ⟨live, unwritten⟩ := ordered.held other found rid old slot
     exact others rid _ ⟨other, found, different, old, slot⟩ live unwritten
 · intro first second found again rid present presentAgain slot slotAgain
   rcases split present with ⟨isFirst, new⟩ | ⟨different, old⟩
   · rcases split presentAgain with ⟨isSecond, -⟩ | ⟨differentAgain, oldAgain⟩
     · rw [isFirst, isSecond]
     · exact absurd ⟨second, again, differentAgain, oldAgain, slotAgain⟩
        (own found rid new slot).2.2
   · rcases split presentAgain with ⟨-, newAgain⟩ | ⟨-, oldAgain⟩
     · exact absurd ⟨first, found, different, old, slot⟩ (own again rid newAgain slotAgain).2.2
     · exact ordered.apart first second found again rid old oldAgain slot slotAgain

theorem Ordered.stay (ordered : self.Ordered)
 (pending : after.pending = update self.pending thread insert)
 (table : after.table = self.table) (writeSet : after.writeSet = self.writeSet)
 (own : ∀ new rid, insert = some new → new.stage.slot = some rid →
  self.table.Live rid new.childTuple ∧ (∀ txn, (txn, rid) ∉ self.writeSet) ∧
   ¬ self.Elsewhere thread fun stage => stage.slot = some rid)
 (classified : ∀ rid tuple, self.table.Live rid tuple → after.Waiting rid ∨ after.Entered rid) :
 after.Ordered := by
 refine ordered.next pending ?_ ?_ (table ▸ ordered.nodup) ?_ (table ▸ classified)
 · rw [table, writeSet]
   exact own
 · simp_all
 · rw [table, writeSet]
   exact ordered.written

theorem Owner.congr {owner : HashTableIndex Row Key} (own : self.Owner owner)
 (index : after.index = self.index) (entered : ∀ rid, after.Entered rid ↔ self.Entered rid)
 (live : ∀ rid tuple, self.Entered rid →
  (after.table.Live rid tuple ↔ self.table.Live rid tuple)) : after.Owner owner := by
 refine ⟨index ▸ own.keyFromTuple, index ▸ own.isSome, own.represents.congr fun rid tuple => ?_⟩
 simp_all

end

variable {old : PendingInsert Row}

omit [DecidableEq Key] in
theorem Ordered.not_elsewhere (ordered : self.Ordered) (present : self.pending thread = some old)
 (slot : old.stage.slot = some rid) :
 ¬ self.Elsewhere thread fun stage => stage.slot = some rid := by
 intro elsewhere
 obtain ⟨other, found, different, presentOther, slotOther⟩ := elsewhere
 exact different (ordered.apart other thread found old rid presentOther present slotOther slot)

theorem slot_of_entered (stage : InsertStage) (entered : stage = .entered rid) :
 stage.slot = some rid := by
 rw [entered]
 rfl

theorem slot_of_waiting (stage : InsertStage) (waiting : stage.waiting = some rid) :
 stage.slot = some rid := by
 cases stage with
 | scanned => cases waiting
 | stored tempRid => exact waiting
 | refused tempRid => exact waiting
 | entered tempRid => cases waiting

omit [DecidableEq Key] in
theorem Ordered.live_of_entered (ordered : self.Ordered) (entered : self.Entered rid) :
 ∃ tuple, self.table.Live rid tuple := by
 rcases entered with ⟨txn, member⟩ | ⟨other, found, present, stage⟩
 · exact ordered.written txn rid member
 · exact ⟨_, (ordered.held other found rid present (slot_of_entered _ stage)).1⟩

/-! ### The scan, and an insert without a slot -/

omit [DecidableEq Key] in
theorem atStage_idle (pending : after.pending = update self.pending thread insert)
 (before : ∀ old, self.pending thread = some old → old.stage.slot = none)
 (now : ∀ new, insert = some new → new.stage.slot = none)
 (slot : ∀ stage, holds stage → stage.slot = some rid) :
 after.AtStage holds ↔ self.AtStage holds := by
 have slotless : ∀ {found : Option (PendingInsert Row)},
  (∀ new, found = some new → new.stage.slot = none) →
   ¬ ∃ new, found = some new ∧ holds new.stage := by
  intro found none held
  obtain ⟨new, same, stage⟩ := held
  have impossible := slot _ stage
  rw [none new same] at impossible
  cases impossible
 rw [@atStage_iff _ _ after thread, @atStage_iff _ _ self thread, elsewhere_congr pending, pending,
  update_self, or_iff_right (slotless now), or_iff_right (slotless before)]

omit [DecidableEq Key] in
theorem Ordered.idle (ordered : self.Ordered)
 (pending : after.pending = update self.pending thread insert)
 (before : ∀ old, self.pending thread = some old → old.stage.slot = none)
 (now : ∀ new, insert = some new → new.stage.slot = none)
 (table : after.table = self.table) (index : after.index = self.index)
 (writeSet : after.writeSet = self.writeSet) :
 after.Ordered ∧ ∀ owner, self.Owner owner → after.Owner owner := by
 have entered : ∀ rid, after.Entered rid ↔ self.Entered rid := by
  intro rid
  rw [entered_iff, entered_iff, writeSet, atStage_idle pending before now slot_of_entered]
 have waiting : ∀ rid, after.Waiting rid ↔ self.Waiting rid := fun rid =>
  atStage_idle pending before now slot_of_waiting
 refine ⟨ordered.stay pending table writeSet (fun new rid isNew slot => ?_)
  (fun rid tuple live => ?_), fun owner own => ?_⟩
 · rw [now new isNew] at slot
   cases slot
 · rw [waiting, entered]
   exact ordered.classified rid tuple live
 · exact own.congr index entered fun rid tuple _ => by rw [table]

/-! ### The slot -/

variable {tempRid : RID}

omit [DecidableEq Key] in
theorem Ordered.insertTuple (ordered : self.Ordered) {txn : TxnId} {childTuple : Row}
 {childRid : RID} {ts : ℕ}
 (present : self.pending thread = some ⟨txn, childTuple, childRid, .scanned⟩)
 (fresh : tempRid ∉ self.table.rids)
 (pending : after.pending = update self.pending thread
  (some ⟨txn, childTuple, childRid, .stored tempRid⟩))
 (table : after.table = self.table.insertTuple tempRid ⟨ts, false⟩ childTuple)
 (index : after.index = self.index) (writeSet : after.writeSet = self.writeSet) :
 after.Ordered ∧ ∀ owner, self.Owner owner → after.Owner owner := by
 have entered : ∀ rid, after.Entered rid ↔ self.Entered rid := by
  intro rid
  have other : ∀ {stage : InsertStage}, stage.slot = none ∨ stage = .stored tempRid →
   stage ≠ .entered rid := by
   intro stage either same
   rw [same] at either
   rcases either with none | stored
   · cases none
   · cases stored
  rw [entered_iff, entered_iff, writeSet, atStage_of_some present,
   atStage_of_some (by rw [pending, update_self]), elsewhere_congr pending,
   or_iff_right (other (.inr rfl)), or_iff_right (other (.inl rfl))]
 have live : ∀ rid tuple, after.table.Live rid tuple ↔
  self.table.Live rid tuple ∨ (rid = tempRid ∧ tuple = childTuple) := by
  intro rid tuple
  rw [table]
  exact TableHeap.live_insertTuple
 refine ⟨ordered.next pending (fun new rid isNew slot => ?_) (fun rid tuple _ old unwritten => ?_)
  ?_ (fun id rid member => ?_) (fun rid tuple now => ?_), fun owner own => ?_⟩
 · cases isNew
   cases slot
   refine ⟨(live ..).mpr (.inr ⟨rfl, rfl⟩), fun id member => ?_, fun elsewhere => ?_⟩
   · obtain ⟨tuple, old⟩ := ordered.written id tempRid (writeSet ▸ member)
     exact fresh old.mem_rids
   · obtain ⟨other, found, -, presentOther, slotOther⟩ := elsewhere
     exact fresh (ordered.held other found tempRid presentOther slotOther).1.mem_rids
 · simp_all
 · rw [table, TableHeap.rids_insertTuple, nodup_append]
   refine ⟨ordered.nodup, nodup_singleton _, fun rid old other new same => ?_⟩
   simp_all
 · obtain ⟨tuple, old⟩ := ordered.written id rid (writeSet ▸ member)
   exact ⟨tuple, (live ..).mpr (.inl old)⟩
 · rw [entered, waiting_iff, atStage_of_some (by rw [pending, update_self]),
    elsewhere_congr pending]
   rcases (live ..).mp now with old | ⟨isNew, -⟩
   · rcases ordered.classified rid tuple old with waiting | through
     · rw [waiting_iff, atStage_of_some present] at waiting
       exact .inl (.inr (waiting.resolve_left fun impossible => by cases impossible))
     · exact .inr through
   · exact .inl (.inl (by rw [isNew]; rfl))
 · refine own.congr index entered fun rid tuple through => ?_
   rw [live]
   refine or_iff_left fun new => ?_
   obtain ⟨tuple, old⟩ := ordered.live_of_entered through
   exact fresh (new.1 ▸ old.mem_rids)

/-! ### The entry -/

omit [DecidableEq Key] in
theorem Ordered.refuse (ordered : self.Ordered) (present : self.pending thread = some old)
 (stage : old.stage = .stored tempRid)
 (pending : after.pending = update self.pending thread
  (some { old with stage := .refused tempRid })) (table : after.table = self.table)
 (index : after.index = self.index) (writeSet : after.writeSet = self.writeSet) :
 after.Ordered ∧ ∀ owner, self.Owner owner → after.Owner owner := by
 have now : after.pending thread = some { old with stage := .refused tempRid } := by
  rw [pending, update_self]
 have entered : ∀ rid, after.Entered rid ↔ self.Entered rid := by
  intro rid
  have different : ∀ other, other = InsertStage.stored tempRid ∨ other = .refused tempRid →
   other ≠ .entered rid := by
   intro other either same
   rw [same] at either
   rcases either with stored | refused
   · cases stored
   · cases refused
  rw [entered_iff, entered_iff, writeSet, atStage_of_some present, atStage_of_some now,
   elsewhere_congr pending, or_iff_right (different _ (.inr rfl)),
   or_iff_right (different _ (.inl stage))]
 have waiting : ∀ rid, after.Waiting rid ↔ self.Waiting rid := by
  intro rid
  rw [waiting_iff, waiting_iff, atStage_of_some present, atStage_of_some now,
   elsewhere_congr pending, stage]
  rfl
 have slot : old.stage.slot = some tempRid := by
  rw [stage]
  rfl
 refine ⟨ordered.stay pending table writeSet (fun new rid isNew slotNew => ?_)
  (fun rid tuple live => ?_), fun owner own => ?_⟩
 · cases isNew
   cases slotNew
   obtain ⟨live, unwritten⟩ := ordered.held thread old tempRid present slot
   exact ⟨live, unwritten, ordered.not_elsewhere present slot⟩
 · rw [waiting, entered]
   exact ordered.classified rid tuple live
 · exact own.congr index entered fun rid tuple _ => by rw [table]

theorem isSome_insertEntry {index : HashTableIndex Row Key} {key : Key}
 (absent : index.entries key = none) (rid : RID) (other : Key) :
 ((index.insertEntry key rid).entries other).isSome =
  ((index.entries other).isSome || decide (other = key)) := by
 unfold HashTableIndex.insertEntry
 rw [absent, Option.isSome_none, if_neg Bool.false_ne_true]
 by_cases own : other = key
 · simp_all
 · simp_all

theorem Ordered.enter (ordered : self.Ordered) (present : self.pending thread = some old)
 (stage : old.stage = .stored tempRid)
 (absent : self.index.entries (self.keyOf old.childTuple) = none)
 (pending : after.pending = update self.pending thread
  (some { old with stage := .entered tempRid })) (table : after.table = self.table)
 (index : after.index = self.index.insertEntry (self.keyOf old.childTuple) old.childRid)
 (writeSet : after.writeSet = self.writeSet) :
 after.Ordered ∧ ∀ owner, self.Owner owner →
  after.Owner (owner.insertEntry (self.keyOf old.childTuple) tempRid) := by
 have now : after.pending thread = some { old with stage := .entered tempRid } := by
  rw [pending, update_self]
 have slot : old.stage.slot = some tempRid := by
  rw [stage]
  rfl
 obtain ⟨live, unwritten⟩ := ordered.held thread old tempRid present slot
 have entered : ∀ rid, after.Entered rid ↔ self.Entered rid ∨ rid = tempRid := by
  intro rid
  have different : old.stage ≠ .entered rid := by
   rw [stage]
   exact fun same => by cases same
  rw [entered_iff, entered_iff, writeSet, atStage_of_some present, atStage_of_some now,
   elsewhere_congr pending, or_iff_right different, or_assoc]
  refine or_congr_right (or_comm.trans (or_congr_right ⟨fun same => ?_, fun same => ?_⟩))
  · cases same
    rfl
  · rw [same]
 refine ⟨ordered.stay pending table writeSet (fun new rid isNew slotNew => ?_)
  (fun rid tuple still => ?_), fun owner own => ⟨?_, fun key => ?_, ?_⟩⟩
 · cases isNew
   cases slotNew
   exact ⟨live, unwritten, ordered.not_elsewhere present slot⟩
 · rw [entered, waiting_iff, atStage_of_some now, elsewhere_congr pending]
   rcases ordered.classified rid tuple still with waiting | through
   · rw [waiting_iff, atStage_of_some present, stage] at waiting
     rcases waiting with own | elsewhere
     · cases own
       exact .inr (.inr rfl)
     · exact .inl (.inr elsewhere)
   · exact .inr (.inl through)
 · rw [index, keyFromTuple_insertEntry, keyFromTuple_insertEntry]
   exact own.keyFromTuple
 · have ownAbsent : owner.entries (self.keyOf old.childTuple) = none := by
    have same := own.isSome (self.keyOf old.childTuple)
    rw [absent, Option.isSome_none, Option.isSome_eq_false_iff, Option.isNone_iff_eq_none] at same
    exact same
   rw [index, isSome_insertEntry ownAbsent, isSome_insertEntry absent, own.isSome]
 · have keyOf : self.keyOf old.childTuple = owner.keyFromTuple old.childTuple := by
    rw [own.keyFromTuple]
    rfl
   rw [keyOf]
   refine (own.represents.insertEntry tempRid fun rid tuple held same => ?_).congr
    fun rid tuple => ?_
   · have taken := (own.represents _ rid).mpr ⟨tuple, held, rfl⟩
     have isSome := own.isSome (owner.keyFromTuple tuple)
     simp_all
   · rw [entered, table]
     constructor
     · intro either
       rcases either with held | ⟨isSlot, isTuple⟩
       · exact ⟨.inl held.1, held.2⟩
       · simp_all
     · intro held
       rcases held with ⟨through | isSlot, still⟩
       · exact .inl ⟨through, still⟩
       · subst isSlot
         exact .inr ⟨rfl, still.unique ordered.nodup live⟩

/-! ### The outcome -/

omit [DecidableEq Key] in
theorem Ordered.delete (ordered : self.Ordered) {ts : ℕ} (present : self.pending thread = some old)
 (stage : old.stage = .refused tempRid)
 (pending : after.pending = update self.pending thread none)
 (table : after.table = self.table.updateTupleMeta ⟨ts, true⟩ tempRid)
 (index : after.index = self.index) (writeSet : after.writeSet = self.writeSet) :
 after.Ordered ∧ ∀ owner, self.Owner owner → after.Owner owner := by
 have now : after.pending thread = none := by
  rw [pending, update_self]
 have slot : old.stage.slot = some tempRid := by
  rw [stage]
  rfl
 have unwritten := (ordered.held thread old tempRid present slot).2
 have alone := ordered.not_elsewhere present slot
 have entered : ∀ rid, after.Entered rid ↔ self.Entered rid := by
  intro rid
  have different : old.stage ≠ .entered rid := by
   rw [stage]
   exact fun same => by cases same
  rw [entered_iff, entered_iff, writeSet, atStage_of_some present, atStage_of_none now,
   elsewhere_congr pending, or_iff_right different]
 have live : ∀ rid tuple, after.table.Live rid tuple ↔
  rid ≠ tempRid ∧ self.table.Live rid tuple := by
  intro rid tuple
  rw [table]
  exact TableHeap.live_deleted
 have apart : ∀ rid, self.Entered rid → rid ≠ tempRid := by
  intro rid through same
  subst same
  rcases through with ⟨txn, member⟩ | ⟨other, found, presentOther, stageOther⟩
  · exact unwritten txn member
  · have sameThread := ordered.apart other thread found old rid presentOther present
     (slot_of_entered _ stageOther) slot
    simp_all
 refine ⟨ordered.next pending (fun _ _ impossible => by cases impossible)
  (fun rid tuple elsewhere old unwritten => ?_) ?_ (fun txn rid member => ?_)
  (fun rid tuple still => ?_), fun owner own => ?_⟩
 · grind
 · rw [table, TableHeap.rids_updateTupleMeta]
   exact ordered.nodup
 · rw [writeSet] at member
   obtain ⟨tuple, old⟩ := ordered.written txn rid member
   grind
 · obtain ⟨different, old⟩ := (live ..).mp still
   rw [entered, waiting_iff, atStage_of_none now, elsewhere_congr pending]
   refine (ordered.classified rid tuple old).imp_left fun waiting => ?_
   rw [waiting_iff, atStage_of_some present, stage] at waiting
   exact waiting.resolve_left fun same => different (Option.some.inj same).symm
 · refine own.congr index entered fun rid tuple through => ?_
   simp_all

omit [DecidableEq Key] in
theorem Ordered.finish (ordered : self.Ordered) {txn : TxnId}
 (present : self.pending thread = some old) (stage : old.stage = .entered tempRid)
 (pending : after.pending = update self.pending thread none) (table : after.table = self.table)
 (index : after.index = self.index) (writeSet : after.writeSet = (txn, tempRid) :: self.writeSet)
 :
 after.Ordered ∧ ∀ owner, self.Owner owner → after.Owner owner := by
 have now : after.pending thread = none := by
  rw [pending, update_self]
 have slot := slot_of_entered _ stage
 have live := (ordered.held thread old tempRid present slot).1
 have alone := ordered.not_elsewhere present slot
 have entered : ∀ rid, after.Entered rid ↔ self.Entered rid := by
  intro rid
  rw [entered_iff, entered_iff, writeSet, atStage_of_some present, atStage_of_none now,
   elsewhere_congr pending, stage, ← or_assoc]
  refine or_congr_left ⟨fun found => ?_, fun either => ?_⟩
  · obtain ⟨id, member⟩ := found
    rcases mem_cons.mp member with same | earlier
    · cases same
      exact .inr rfl
    · exact .inl ⟨id, earlier⟩
  · rcases either with ⟨id, earlier⟩ | same
    · exact ⟨id, mem_cons_of_mem _ earlier⟩
    · simp_all
 refine ⟨ordered.next pending (fun _ _ impossible => by cases impossible)
  (fun rid tuple elsewhere still unwritten => ⟨table ▸ still, fun id member => ?_⟩)
  (table ▸ ordered.nodup) (fun id rid member => ?_) (fun rid tuple still => ?_),
  fun owner own => ?_⟩
 · rw [writeSet] at member
   rcases mem_cons.mp member with same | earlier
   · cases same
     exact alone elsewhere
   · exact unwritten id earlier
 · rw [writeSet] at member
   rw [table]
   rcases mem_cons.mp member with same | earlier
   · cases same
     exact ⟨_, live⟩
   · exact ordered.written id rid earlier
 · rw [entered, waiting_iff, atStage_of_none now, elsewhere_congr pending]
   refine (ordered.classified rid tuple (table ▸ still)).imp_left fun waiting => ?_
   rw [waiting_iff, atStage_of_some present, stage] at waiting
   exact waiting.resolve_left fun impossible => by cases impossible
 · exact own.congr index entered fun rid tuple _ => by rw [table]

end Steps

/-! ### Runs -/

variable {owner : HashTableIndex Row Key}

theorem insertEntry_inj {index : HashTableIndex Row Key} {key : Key} {tempRid childRid : RID}
 (ownAbsent : owner.entries key = none) (absent : index.entries key = none) :
 owner.insertEntry key tempRid = index.insertEntry key childRid ↔
  owner = index ∧ childRid = tempRid := by
 unfold HashTableIndex.insertEntry
 rw [ownAbsent, absent, Option.isSome_none, if_neg Bool.false_ne_true, if_neg Bool.false_ne_true]
 constructor
 · intro same
   obtain ⟨keyFromTuple, entries⟩ := HashTableIndex.mk.inj same
   have atKey := congrFun entries key
   rw [update_self, update_self] at atKey
   refine ⟨?_, (Option.some.inj atKey).symm⟩
   cases owner
   cases index
   dsimp only at keyFromTuple entries ownAbsent absent
   subst keyFromTuple
   congr 1
   funext other
   by_cases own : other = key
   · rw [own, ownAbsent, absent]
   · have atOther := congrFun entries other
     simp_all
 · intro both
   rw [both.1, both.2]

theorem Ordered.step (ordered : self.Ordered) {owner : HashTableIndex Row Key}
 (own : self.Owner owner) {event : InsertEvent Row} {after : PrimaryKeyTable Row Key}
 (taken : self.step event = some after) :
 after.Ordered ∧ ∃ newOwner, after.Owner newOwner ∧
  (newOwner = after.index ↔ owner = self.index ∧ self.Matched event) := by
 have kept : after.Ordered ∧ (∀ owner, self.Owner owner → after.Owner owner) →
  after.index = self.index → self.Matched event → after.Ordered ∧
   ∃ newOwner, after.Owner newOwner ∧
    (newOwner = after.index ↔ owner = self.index ∧ self.Matched event) := by
  intro both index matched
  refine ⟨both.1, owner, both.2 owner own, ?_⟩
  rw [index]
  exact (and_iff_left matched).symm
 cases event with
 | scanKey thread txn childTuple childRid =>
  dsimp only [PrimaryKeyTable.step] at taken
  cases present : self.pending thread with
  | some insert =>
   rw [present] at taken
   cases taken
  | none =>
   rw [present] at taken
   have idle : ∀ old, self.pending thread = some old → old.stage.slot = none := by
    intro old found
    rw [present] at found
    cases found
   by_cases free : (self.index.scanKey (self.keyOf childTuple)).isEmpty = true
   · rw [if_pos free] at taken
     cases taken
     have pending : (self.setPending thread
      (some ⟨txn, childTuple, childRid, .scanned⟩)).pending = update self.pending
       thread (some ⟨txn, childTuple, childRid, .scanned⟩) := rfl
     refine kept (ordered.idle pending idle (fun new same => ?_) rfl rfl rfl) rfl trivial
     rw [← Option.some.inj same]
     rfl
   · rw [if_neg free] at taken
     cases taken
     have pending : self.pending = update self.pending thread none :=
      (update_eq_self_iff.mpr present.symm).symm
     exact kept (ordered.idle pending idle (fun new same => by cases same) rfl rfl rfl) rfl
      trivial
 | insertTuple thread tempRid =>
  dsimp only [PrimaryKeyTable.step] at taken
  split at taken
  · rename_i txn childTuple childRid present
    cases tempRid with
    | none =>
     cases taken
     have pending : (self.setPending thread none).pending =
      update self.pending thread none := rfl
     refine kept (ordered.idle pending (fun old found => ?_)
      (fun new same => by cases same) rfl rfl rfl) rfl trivial
     rw [present] at found
     rw [← Option.some.inj found]
     rfl
    | some tempRid =>
     obtain ⟨fresh, same⟩ := Option.ite_none_left_eq_some.mp taken
     cases same
     exact kept (ordered.insertTuple present fresh rfl rfl rfl rfl) rfl trivial
  · cases taken
 | insertEntry thread room =>
  dsimp only [PrimaryKeyTable.step] at taken
  split at taken
  · rename_i txn childTuple childRid tempRid present
    have same := Option.some.inj taken
    unfold PrimaryKeyTable.insertEntry at same
    by_cases created : room = true ∧ self.index.entries (self.keyOf childTuple) = none
    · rw [if_pos created] at same
      have ownAbsent := own.isSome (self.keyOf childTuple)
      rw [created.2, Option.isSome_none, Option.isSome_eq_false_iff,
       Option.isNone_iff_eq_none] at ownAbsent
      obtain ⟨next, owners⟩ := ordered.enter present rfl created.2
       (congrArg pending same).symm (congrArg table same).symm (congrArg index same).symm
       (congrArg writeSet same).symm
      rw [← same]
      rw [← same] at next owners
      refine ⟨next, _, owners owner own, (insertEntry_inj ownAbsent created.2).trans
       (and_congr_right fun _ => ⟨fun isSlot => ?_, fun matched => ?_⟩)⟩
      · intro insert found _ _
        grind
      · exact (InsertStage.stored.inj (matched _ present created.1 created.2)).symm
    · rw [if_neg created] at same
      subst same
      refine kept (ordered.refuse present rfl rfl rfl rfl rfl) rfl ?_
      intro insert found isRoom absent
      grind
  · cases taken
 | updateTupleMeta thread =>
  dsimp only [PrimaryKeyTable.step] at taken
  split at taken
  · rename_i txn childTuple childRid tempRid present
    cases taken
    exact kept (ordered.delete present rfl rfl rfl rfl rfl) rfl trivial
  · cases taken
 | finish thread =>
  dsimp only [PrimaryKeyTable.step] at taken
  split at taken
  · rename_i txn childTuple childRid tempRid present
    cases taken
    exact kept (ordered.finish present rfl rfl rfl rfl rfl) rfl trivial
  · cases taken

theorem Ordered.run {keyFromTuple : Row → Key} {events : List (InsertEvent Row)}
 {final : PrimaryKeyTable Row Key}
 (run : Run (ofFunction PrimaryKeyTable.step) (start keyFromTuple) events final) :
 final.Ordered ∧ ∃ owner, final.Owner owner ∧ (owner = final.index ↔
  Run (Guarded Matched (ofFunction PrimaryKeyTable.step)) (start keyFromTuple) events
   final) := by
 induction run with
 | nil =>
  exact ⟨start_ordered keyFromTuple, _, start_owner keyFromTuple,
   iff_of_true rfl .nil⟩
 | @snoc events state next event before taken ih =>
  obtain ⟨ordered, owner, own, matched_iff⟩ := ih
  obtain ⟨nextOrdered, newOwner, newOwn, new_iff⟩ := ordered.step own taken
  refine ⟨nextOrdered, newOwner, newOwn, new_iff.trans ⟨fun both => ?_, fun guarded => ?_⟩⟩
  · exact .snoc (matched_iff.mp both.1) ⟨both.2, taken⟩
  · obtain ⟨middle, early, matched, -⟩ := guarded.last
    have same := Run.unique early.of_guarded before
    simp_all

omit [DecidableEq Key] in
theorem Ordered.inStep (ordered : self.Ordered) (own : self.Owner owner)
 (isIndex : owner = self.index) : self.InStep where
 entries key rid found := by
  subst isIndex
  obtain ⟨tuple, ⟨-, stored, member, same, holds, -⟩, isKey⟩ :=
   (own.represents key rid).mp found
  exact ⟨stored, member, same, holds ▸ isKey⟩
 reachable txn rid member := by
  subst isIndex
  obtain ⟨tuple, live⟩ := ordered.written txn rid member
  exact ⟨tuple, live, (own.represents _ rid).mpr ⟨tuple, ⟨.inl ⟨txn, member⟩, live⟩, rfl⟩⟩
 refused stored member notWaiting notEntered := by
  by_contra undeleted
  rcases ordered.classified stored.rid stored.tuple
   ⟨stored, member, rfl, rfl, Bool.eq_false_iff.mpr undeleted⟩ with waiting | entered
  · exact notWaiting waiting
  · exact notEntered entered
 unique rid other tuple otherTuple live otherLive notWaiting otherNotWaiting same := by
  have entered := (ordered.classified rid tuple live).resolve_left notWaiting
  have otherEntered :=
   (ordered.classified other otherTuple otherLive).resolve_left otherNotWaiting
  have first := (own.represents (owner.keyFromTuple tuple) rid).mpr
   ⟨tuple, ⟨entered, live⟩, rfl⟩
  have second := (own.represents (owner.keyFromTuple tuple) other).mpr
   ⟨otherTuple, ⟨otherEntered, otherLive⟩, by rw [own.keyFromTuple]; exact same.symm⟩
  simp_all

omit [DecidableEq Key] in
theorem InStep.owner_eq (inStep : self.InStep) (ordered : self.Ordered) (own : self.Owner owner)
 (quiet : ∀ thread, self.pending thread = none) : owner = self.index := by
 have entries : owner.entries = self.index.entries := by
  funext key
  cases found : owner.entries key with
  | none =>
   have isSome := own.isSome key
   simp_all
  | some rid =>
   obtain ⟨tuple, ⟨entered, live⟩, isKey⟩ := (own.represents key rid).mp found
   rcases entered with ⟨txn, member⟩ | ⟨thread, insert, present, -⟩
   · obtain ⟨again, liveAgain, reaches⟩ := inStep.reachable txn rid member
     rw [← reaches, ← isKey, live.unique ordered.nodup liveAgain, own.keyFromTuple]
     rfl
   · simp_all
 have keyFromTuple := own.keyFromTuple
 cases owner
 simp_all

/-- A run whose entries all get the slot of their tuple keeps index and heap in step, and a
run that has come to rest has them in step only then. -/
theorem inStep_iff_matched {keyFromTuple : Row → Key} {events : List (InsertEvent Row)}
 {final : PrimaryKeyTable Row Key}
 (run : Run (ofFunction step) (start keyFromTuple) events final) :
 (Run (Guarded Matched (ofFunction step)) (start keyFromTuple) events final → final.InStep) ∧
  ((∀ thread, final.pending thread = none) → final.InStep →
   Run (Guarded Matched (ofFunction step)) (start keyFromTuple) events final) := by
 obtain ⟨ordered, owner, own, matched_iff⟩ := Ordered.run run
 exact ⟨fun guarded => ordered.inStep own (matched_iff.mpr guarded),
  fun quiet inStep => matched_iff.mp (inStep.owner_eq ordered own quiet)⟩

/-- Two threads insert rows of one key, and both have scanned the index before. -/
def racing : List (InsertEvent (ℕ × ℕ)) :=
 [.scanKey 0 10 (7, 1) ⟨0, 0⟩, .scanKey 1 11 (7, 2) ⟨0, 1⟩, .insertTuple 0 (some ⟨0, 0⟩),
  .insertTuple 1 (some ⟨0, 1⟩), .insertEntry 1 true, .insertEntry 0 true, .finish 1,
  .updateTupleMeta 0]

theorem inStep_iff_matched_racing :
 ∃ final, replay step (start Prod.fst) racing = some final ∧
  final.index.entries 7 = some ⟨0, 1⟩ ∧ final.InStep := by
 have replayed : (replay (restrict Matched step) (start Prod.fst) racing).map
  (fun final => final.index.entries 7) = some (some ⟨0, 1⟩) := by decide
 obtain ⟨final, guarded, same⟩ := Option.map_eq_some_iff.mp replayed
 have run := Run.of_replay guarded
 have all : (replay step (start Prod.fst) racing).isSome = true := by decide
 obtain ⟨other, reached⟩ := Option.isSome_iff_exists.mp all
 have isFinal := Run.unique (Run.of_replay_all reached) run.of_guarded
 exact ⟨final, isFinal ▸ reached, same, (inStep_iff_matched run.of_guarded).1 run⟩

/-- An insert of a row of `VALUES`, which has no record id. -/
def values : List (InsertEvent (ℕ × ℕ)) :=
 [.scanKey 0 10 (7, 1) ⟨invalidPageId, 0⟩, .insertTuple 0 (some ⟨0, 0⟩), .insertEntry 0 true,
  .finish 0]

theorem not_inStep_values :
 ¬ ∀ events (final : PrimaryKeyTable (ℕ × ℕ) ℕ),
  Run (ofFunction step) (start Prod.fst) events final → final.InStep := by
 intro claim
 have replayed : (replay step (start Prod.fst) values).map
  (fun final => (final.index.entries 7, final.table.rids)) =
   some (some ⟨invalidPageId, 0⟩, [⟨0, 0⟩]) := by decide
 obtain ⟨final, reached, same⟩ := Option.map_eq_some_iff.mp replayed
 obtain ⟨entry, rids⟩ := Prod.mk.inj same
 obtain ⟨stored, member, isRid, -⟩ :=
  (claim values final (Run.of_replay_all reached)).entries 7 _ entry
 have inTable : stored.rid ∈ final.table.rids := mem_map.mpr ⟨stored, member, rfl⟩
 rw [rids, isRid] at inTable
 exact absurd inTable (by decide)

end PrimaryKeyTable

end MyNotes.Cmu15445
