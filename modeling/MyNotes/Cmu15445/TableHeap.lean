/-
Tables of project 3: a heap of tuples and the unique hash indexes on it.

The heap is the list of its tuples in the order of its iterator.  `InsertTuple` stores
behind them, under a record id that is a parameter; `KeyFromTuple` of an index is a
parameter as well.
-/

import MyNotes.Cmu15445.UndoLog

namespace MyNotes.Cmu15445

open Function List

structure HeapTuple (Row : Type) where
 rid : RID
 tupleMeta : TupleMeta
 tuple : Row

abbrev TableHeap (Row : Type) := List (HeapTuple Row)

namespace TableHeap

variable {Row : Type}

section

variable (self : TableHeap Row)

def rids : List RID := self.map HeapTuple.rid

def insertTuple (rid : RID) (tupleMeta : TupleMeta) (tuple : Row) : TableHeap Row :=
 self ++ [⟨rid, tupleMeta, tuple⟩]

def updateTupleMeta (tupleMeta : TupleMeta) (rid : RID) : TableHeap Row :=
 self.map fun stored => if stored.rid = rid then { stored with tupleMeta := tupleMeta } else stored

def getTuple (rid : RID) : Option (TupleMeta × Row) :=
 (self.find? fun stored => stored.rid = rid).map fun stored => (stored.tupleMeta, stored.tuple)

def Live (rid : RID) (tuple : Row) : Prop :=
 ∃ stored ∈ self, stored.rid = rid ∧ stored.tuple = tuple ∧ stored.tupleMeta.isDeleted = false

end

instance [DecidableEq Row] (table : TableHeap Row) (rid : RID) (tuple : Row) :
 Decidable (TableHeap.Live table rid tuple) :=
 inferInstanceAs (Decidable (∃ stored ∈ table, stored.rid = rid ∧ stored.tuple = tuple ∧
  stored.tupleMeta.isDeleted = false))

variable {self : TableHeap Row}

variable {rid : RID} {tuple : Row}

theorem Live.mem_rids (live : self.Live rid tuple) :
 rid ∈ self.rids := by
 obtain ⟨stored, member, same, -⟩ := live
 exact mem_map.mpr ⟨stored, member, same⟩

theorem Live.unique (nodup : self.rids.Nodup) {first second : Row} (one : self.Live rid first)
 (other : self.Live rid second) : first = second := by
 obtain ⟨stored, member, same, tuple, -⟩ := one
 obtain ⟨otherStored, otherMember, otherSame, otherTuple, -⟩ := other
 have equal := inj_on_of_nodup_map nodup member otherMember (same.trans otherSame.symm)
 rw [← tuple, ← otherTuple, equal]

theorem Live.getTuple (nodup : self.rids.Nodup) (live : self.Live rid tuple) :
 ∃ tupleMeta, self.getTuple rid = some (tupleMeta, tuple) ∧ tupleMeta.isDeleted = false := by
 obtain ⟨stored, member, same, holds, undeleted⟩ := live
 have found : self.find? (fun other => other.rid = rid) = some stored := by
  cases search : self.find? (fun other => other.rid = rid) with
  | none =>
   have absent := List.find?_eq_none.mp search stored member
   exact absurd (decide_eq_true same) absent
  | some other =>
   have otherSame : other.rid = rid := by simpa using List.find?_some search
   rw [inj_on_of_nodup_map nodup (mem_of_find?_eq_some search) member
    (otherSame.trans same.symm)]
 refine ⟨stored.tupleMeta, ?_, undeleted⟩
 unfold TableHeap.getTuple
 rw [found, ← holds]
 rfl

theorem rids_insertTuple (rid : RID) (tupleMeta : TupleMeta) (tuple : Row) :
 (self.insertTuple rid tupleMeta tuple).rids = self.rids ++ [rid] := by
 rw [rids, insertTuple, map_append]
 rfl

theorem rids_updateTupleMeta (tupleMeta : TupleMeta) (rid : RID) :
 (self.updateTupleMeta tupleMeta rid).rids = self.rids := by
 rw [rids, updateTupleMeta, map_map]
 apply map_congr_left
 grind

theorem live_insertTuple {ts : ℕ} {other : RID} {otherTuple : Row} :
 (self.insertTuple rid ⟨ts, false⟩ tuple).Live other otherTuple ↔
  self.Live other otherTuple ∨ (other = rid ∧ otherTuple = tuple) := by
 constructor
 · intro live
   obtain ⟨stored, member, same, holds, undeleted⟩ := live
   rcases mem_append.mp member with old | new
   · exact Or.inl ⟨stored, old, same, holds, undeleted⟩
   · simp_all
 · intro cases
   rcases cases with live | ⟨same, holds⟩
   · obtain ⟨stored, member, rest⟩ := live
     exact ⟨stored, mem_append_left _ member, rest⟩
   · exact ⟨⟨rid, ⟨ts, false⟩, tuple⟩, mem_append_right _ mem_cons_self, same.symm,
      holds.symm, rfl⟩

theorem live_deleted {ts : ℕ} {other : RID} {otherTuple : Row} :
 (self.updateTupleMeta ⟨ts, true⟩ rid).Live other otherTuple ↔
  other ≠ rid ∧ self.Live other otherTuple := by
 unfold Live updateTupleMeta
 constructor
 · intro live
   obtain ⟨stored, member, same, holds, undeleted⟩ := live
   obtain ⟨old, inHeap, changed⟩ := mem_map.mp member
   by_cases hit : old.rid = rid
   · grind
   · grind
 · grind

end TableHeap

structure HashTableIndex (Row Key : Type) where
 keyFromTuple : Row → Key
 entries : Key → Option RID

namespace HashTableIndex

variable {Row Key : Type} [DecidableEq Key]

section

variable (self : HashTableIndex Row Key)

def insertEntry (key : Key) (rid : RID) : HashTableIndex Row Key :=
 if (self.entries key).isSome then self
 else { self with entries := update self.entries key (some rid) }

/-- The entry of the key goes, whatever its record id is. -/
def deleteEntry (key : Key) (_rid : RID) : HashTableIndex Row Key :=
 { self with entries := update self.entries key none }

def scanKey (key : Key) : List RID := (self.entries key).toList

end

/-- The index has the record id of each live tuple under its key, and nothing else. -/
def Represents (index : HashTableIndex Row Key) (live : RID → Row → Prop) : Prop :=
 ∀ key rid, index.entries key = some rid ↔
  ∃ tuple, live rid tuple ∧ index.keyFromTuple tuple = key

theorem keyFromTuple_insertEntry (index : HashTableIndex Row Key) (key : Key) (rid : RID) :
 (index.insertEntry key rid).keyFromTuple = index.keyFromTuple := by
 unfold insertEntry
 split <;> rfl

variable {index : HashTableIndex Row Key} {live : RID → Row → Prop}

variable (represents : index.Represents live)
include represents

theorem Represents.insertEntry {tuple : Row} (newRid : RID)
 (free : ∀ rid other, live rid other → index.keyFromTuple other ≠ index.keyFromTuple tuple) :
 (index.insertEntry (index.keyFromTuple tuple) newRid).Represents fun rid other =>
  live rid other ∨ (rid = newRid ∧ other = tuple) := by
 have absent : index.entries (index.keyFromTuple tuple) = none := by
  cases found : index.entries (index.keyFromTuple tuple) with
  | none => rfl
  | some rid =>
   obtain ⟨other, present, same⟩ := (represents _ rid).mp found
   exact absurd same (free rid other present)
 intro key rid
 unfold HashTableIndex.insertEntry
 rw [absent, Option.isSome_none, if_neg Bool.false_ne_true]
 dsimp only
 by_cases own : key = index.keyFromTuple tuple
 · subst key
   rw [update_self]
   constructor
   · simp_all
   · intro held
     obtain ⟨other, present | ⟨newest, -⟩, same⟩ := held
     · exact absurd same (free rid other present)
     · rw [newest]
 · rw [update_of_ne own, represents key rid]
   constructor
   · grind
   · intro held
     obtain ⟨other, present | ⟨-, newest⟩, same⟩ := held
     · exact ⟨other, present, same⟩
     · simp_all

theorem Represents.deleteEntry {tuple : Row} {childRid : RID} (alone : ∀ rid other, live rid other →
  index.keyFromTuple other = index.keyFromTuple tuple → rid = childRid)
 (own : ∀ other, live childRid other →
  index.keyFromTuple other = index.keyFromTuple tuple) :
 (index.deleteEntry (index.keyFromTuple tuple) childRid).Represents fun rid other =>
  rid ≠ childRid ∧ live rid other := by
 intro key rid
 unfold HashTableIndex.deleteEntry
 dsimp only
 by_cases gone : key = index.keyFromTuple tuple
 · subst key
   rw [update_self]
   constructor
   · intro impossible
     cases impossible
   · grind
 · rw [update_of_ne gone, represents key rid]
   constructor
   · grind
   · grind

omit [DecidableEq Key] in
theorem Represents.congr {other : RID → Row → Prop}
 (same : ∀ rid tuple, live rid tuple ↔ other rid tuple) : index.Represents other := by
 intro key rid
 rw [represents key rid]
 constructor
 · simp_all
 · simp_all

end HashTableIndex

structure TableInfo (Row Key : Type) where
 table : TableHeap Row
 indexes : List (HashTableIndex Row Key)

end MyNotes.Cmu15445
