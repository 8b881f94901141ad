/-
`InsertExecutor`, `UpdateExecutor` and `DeleteExecutor` of project 3.

A statement is the first call of `Next`, which handles all tuples of the child; a later
call returns false at once.  The target expressions of an update are one function of
the child tuple.
-/

import MyNotes.Library.Transition
import MyNotes.Cmu15445.TableHeap

namespace MyNotes.Cmu15445.TableInfo

open Library.Transition List TableHeap

variable {Row Key : Type} [DecidableEq Key]

/-! ### The executors -/

section Executors

variable (nextRid : List RID → RID)

def insertRow (self : TableInfo Row Key) (tuple : Row) : TableInfo Row Key :=
 let newRid := nextRid self.table.rids
 { table := self.table.insertTuple newRid ⟨0, false⟩ tuple
   indexes := self.indexes.map fun index =>
    index.insertEntry (index.keyFromTuple tuple) newRid }

def insertLoop : List Row → TableInfo Row Key → ℕ → TableInfo Row Key × ℕ
 | [], self, count => (self, count)
 | tuple :: rest, self, count => insertLoop rest (self.insertRow nextRid tuple) (count + 1)

variable (target : Row → Row)

/-- One tuple of an update: delete, insert, and for each index the same. -/
def updateRow (self : TableInfo Row Key) (childTuple : Row) (childRid : RID) :
 TableInfo Row Key :=
 let table := self.table.updateTupleMeta ⟨0, true⟩ childRid
 let newTuple := target childTuple
 let newRid := nextRid table.rids
 { table := table.insertTuple newRid ⟨0, false⟩ newTuple
   indexes := self.indexes.map fun index =>
    (index.deleteEntry (index.keyFromTuple childTuple) childRid).insertEntry
     (index.keyFromTuple newTuple) newRid }

def updateLoop : List (Row × RID) → TableInfo Row Key → List RID → ℕ → TableInfo Row Key × ℕ
 | [], self, _, count => (self, count)
 | (childTuple, childRid) :: rest, self, haveUpdated, count =>
  if childRid ∈ haveUpdated then updateLoop rest self haveUpdated count
  else
   updateLoop rest (self.updateRow nextRid target childTuple childRid)
    (childRid :: haveUpdated) (count + 1)

end Executors

def deleteRow (self : TableInfo Row Key) (childTuple : Row) (childRid : RID) :
 TableInfo Row Key :=
 { table := self.table.updateTupleMeta ⟨0, true⟩ childRid
   indexes := self.indexes.map fun index =>
    index.deleteEntry (index.keyFromTuple childTuple) childRid }

def deleteLoop : List (Row × RID) → TableInfo Row Key → ℕ → TableInfo Row Key × ℕ
 | [], self, count => (self, count)
 | (childTuple, childRid) :: rest, self, count =>
  deleteLoop rest (self.deleteRow childTuple childRid) (count + 1)

inductive Statement (Row : Type) where
 | insert (child : List Row)
 | update (target : Row → Row) (child : List (Row × RID))
 | delete (child : List (Row × RID))

def Statement.reads : Statement Row → List (Row × RID)
 | .insert _ => []
 | .update _ child => child
 | .delete child => child

/-- The table after a statement, and the number of rows that it reports. -/
def execute (nextRid : List RID → RID) (self : TableInfo Row Key) :
 Statement Row → TableInfo Row Key × ℕ
 | .insert child => insertLoop nextRid child self 0
 | .update target child => updateLoop nextRid target child self [] 0
 | .delete child => deleteLoop child self 0

/-! ### Consistency -/

def Consistent (self : TableInfo Row Key) : Prop :=
 ∀ index ∈ self.indexes, index.Represents self.table.Live

def keys (self : TableInfo Row Key) : List (Row → Key) :=
 self.indexes.map HashTableIndex.keyFromTuple

/-- Live tuples have different keys in every index. -/
def DistinctKeys (self : TableInfo Row Key) : Prop :=
 ∀ key ∈ self.keys, ∀ first ∈ self.table, ∀ second ∈ self.table,
  first.tupleMeta.isDeleted = false → second.tupleMeta.isDeleted = false →
   key first.tuple = key second.tuple → first.rid = second.rid

/-- The child of an update or a delete reads live tuples of the table, and after the
statement live tuples have different keys. -/
structure Legal (nextRid : List RID → RID) (info : TableInfo Row Key)
 (statement : Statement Row) : Prop where
 reads : ∀ entry ∈ statement.reads, info.table.Live entry.2 entry.1
 distinct : (info.execute nextRid statement).1.DistinctKeys

/-- No tuple of an update takes a key that a later one still has. -/
def Unobstructed (keys : List (Row → Key)) (target : Row → Row) :
 List (Row × RID) → List RID → Prop
 | [], _ => True
 | (childTuple, childRid) :: rest, haveUpdated =>
  if childRid ∈ haveUpdated then Unobstructed keys target rest haveUpdated
  else
   (∀ later ∈ rest, later.2 ∉ childRid :: haveUpdated →
    ∀ key ∈ keys, key (target childTuple) ≠ key later.1) ∧
   Unobstructed keys target rest (childRid :: haveUpdated)

def InOrder (self : TableInfo Row Key) : Statement Row → Prop
 | .update target child => Unobstructed self.keys target child []
 | _ => True

/-- Record ids name tuples and the indexes are consistent. -/
structure Sound (info : TableInfo Row Key) : Prop where
 nodup : info.table.rids.Nodup
 consistent : info.Consistent

variable {self : TableInfo Row Key}

omit [DecidableEq Key] in
theorem mem_keys {index : HashTableIndex Row Key} (member : index ∈ self.indexes) :
 index.keyFromTuple ∈ self.keys :=
 mem_map.mpr ⟨index, member, rfl⟩

variable {rid : RID} {tuple : Row}

omit [DecidableEq Key] in
theorem Consistent.alone (consistent : self.Consistent) {key : Row → Key} (member : key ∈ self.keys)
 {other : RID} {otherTuple : Row} (live : self.table.Live rid tuple)
 (otherLive : self.table.Live other otherTuple) (same : key otherTuple = key tuple) :
 other = rid := by
 obtain ⟨index, inIndexes, own⟩ := mem_map.mp member
 subst key
 have first := (consistent index inIndexes _ rid).mpr ⟨tuple, live, rfl⟩
 have second := (consistent index inIndexes _ other).mpr ⟨otherTuple, otherLive, same⟩
 exact Option.some.inj (second.symm.trans first)

omit [DecidableEq Key] in
theorem DistinctKeys.apart (distinct : self.DistinctKeys) {key : Row → Key}
 (member : key ∈ self.keys) {other : RID} {otherTuple : Row} (live : self.table.Live rid tuple)
 (otherLive : self.table.Live other otherTuple) (same : key tuple = key otherTuple) :
 rid = other := by
 obtain ⟨stored, inHeap, own, holds, undeleted⟩ := live
 obtain ⟨otherStored, otherInHeap, otherOwn, otherHolds, otherUndeleted⟩ := otherLive
 rw [← own, ← otherOwn]
 apply distinct key member stored inHeap otherStored otherInHeap undeleted otherUndeleted
 rw [holds, otherHolds, same]

/-! ### One tuple -/

section Steps

variable {nextRid : List RID → RID} (fresh : ∀ used, nextRid used ∉ used)

include fresh

theorem nodup_append_nextRid {used : List RID} (nodup : used.Nodup) :
 (used ++ [nextRid used]).Nodup := by
 grind

theorem insertRow_sound (sound : self.Sound)
 (free : ∀ key ∈ self.keys, ∀ rid other, self.table.Live rid other →
  key other ≠ key tuple) :
 (self.insertRow nextRid tuple).Sound where
 nodup := by
  unfold insertRow
  rw [rids_insertTuple]
  exact nodup_append_nextRid fresh sound.nodup
 consistent := by
  intro index member
  obtain ⟨old, inOld, changed⟩ := mem_map.mp member
  subst changed
  exact ((sound.consistent old inOld).insertEntry _ (free _ (mem_keys inOld))).congr
   fun rid other => live_insertTuple.symm

theorem updateRow_sound (sound : self.Sound) {target : Row → Row} {childTuple : Row}
 {childRid : RID} (live : self.table.Live childRid childTuple)
 (free : ∀ key ∈ self.keys, ∀ rid other, self.table.Live rid other → rid ≠ childRid →
  key other ≠ key (target childTuple)) :
 (self.updateRow nextRid target childTuple childRid).Sound where
 nodup := by
  unfold updateRow
  rw [rids_insertTuple, rids_updateTupleMeta]
  exact nodup_append_nextRid fresh sound.nodup
 consistent := by
  intro index member
  obtain ⟨old, inOld, changed⟩ := mem_map.mp member
  subst changed
  have deleted := (sound.consistent old inOld).deleteEntry
   (fun rid other otherLive same => sound.consistent.alone (mem_keys inOld) live otherLive same)
   (fun other otherLive => congrArg old.keyFromTuple (otherLive.unique sound.nodup live))
  have inserted := deleted.insertEntry
   (nextRid (self.table.updateTupleMeta ⟨0, true⟩ childRid).rids)
   (fun rid other both => free _ (mem_keys inOld) rid other both.2 both.1)
  apply inserted.congr
  intro rid other
  exact (live_insertTuple.trans (or_congr_left live_deleted)).symm

end Steps

theorem deleteRow_sound (sound : self.Sound) {childTuple : Row} {childRid : RID}
 (alone : ∀ key ∈ self.keys, ∀ rid other, self.table.Live rid other →
  key other = key childTuple → rid = childRid)
 (own : ∀ other, self.table.Live childRid other → other = childTuple) :
 (self.deleteRow childTuple childRid).Sound where
 nodup := by
  unfold deleteRow
  rw [rids_updateTupleMeta]
  exact sound.nodup
 consistent := by
  intro index member
  obtain ⟨old, inOld, changed⟩ := mem_map.mp member
  subst changed
  apply ((sound.consistent old inOld).deleteEntry (alone _ (mem_keys inOld))
   fun other live => congrArg old.keyFromTuple (own other live)).congr
  intro rid other
  exact live_deleted.symm

/-! ### The loops -/

theorem keys_insertRow (nextRid : List RID → RID) (tuple : Row) :
 (self.insertRow nextRid tuple).keys = self.keys := by
 unfold keys insertRow
 rw [map_map]
 apply map_congr_left
 intro index _
 exact HashTableIndex.keyFromTuple_insertEntry ..

theorem keys_updateRow (nextRid : List RID → RID) (target : Row → Row) (childTuple : Row)
 (childRid : RID) : (self.updateRow nextRid target childTuple childRid).keys = self.keys := by
 unfold keys updateRow
 rw [map_map]
 apply map_congr_left
 intro index _
 exact HashTableIndex.keyFromTuple_insertEntry ..

theorem keys_deleteRow (childTuple : Row) (childRid : RID) :
 (self.deleteRow childTuple childRid).keys = self.keys := by
 unfold keys deleteRow
 rw [map_map]
 rfl

section Loops

variable {nextRid : List RID → RID}

theorem insertLoop_keys (child : List Row) (count : ℕ) :
 (insertLoop nextRid child self count).1.keys = self.keys := by
 induction child generalizing self count with
 | nil => rfl
 | cons tuple rest ih => exact (ih _).trans (keys_insertRow nextRid tuple)

theorem updateLoop_keys (target : Row → Row) (child : List (Row × RID)) (haveUpdated : List RID)
 (count : ℕ) : (updateLoop nextRid target child self haveUpdated count).1.keys = self.keys := by
 induction child generalizing self haveUpdated count with
 | nil => rfl
 | cons entry rest ih =>
  unfold updateLoop
  split
  · exact ih _ _
  · exact (ih _ _).trans (keys_updateRow nextRid target entry.1 entry.2)

theorem insertLoop_live {child : List Row} {count : ℕ} (live : self.table.Live rid tuple) :
 (insertLoop nextRid child self count).1.table.Live rid tuple := by
 induction child generalizing self count with
 | nil => exact live
 | cons new rest ih => exact ih (live_insertTuple.mpr (Or.inl live))

theorem updateLoop_live {target : Row → Row} {child : List (Row × RID)} {haveUpdated : List RID}
 {count : ℕ} (live : self.table.Live rid tuple)
 (settled : ∀ entry ∈ child, entry.2 ∉ haveUpdated → entry.2 ≠ rid) :
 (updateLoop nextRid target child self haveUpdated count).1.table.Live rid tuple := by
 induction child generalizing self haveUpdated count with
 | nil => exact live
 | cons entry rest ih =>
  unfold updateLoop
  split
  · grind
  · rename_i first
    apply ih
    · apply live_insertTuple.mpr
      have different := settled entry mem_cons_self first
      exact Or.inl (live_deleted.mpr ⟨different.symm, live⟩)
    · grind

variable (fresh : ∀ used, nextRid used ∉ used)

include fresh

variable (sound : self.Sound)
include sound

theorem insertLoop_sound (child : List Row) (count : ℕ)
 (distinct : (insertLoop nextRid child self count).1.DistinctKeys) :
 (insertLoop nextRid child self count).1.Sound := by
 induction child generalizing self count with
 | nil => exact sound
 | cons tuple rest ih =>
  unfold insertLoop at distinct ⊢
  apply ih (insertRow_sound fresh sound _) _ distinct
  intro key member rid other live same
  have old : (self.insertRow nextRid tuple).table.Live rid other :=
   live_insertTuple.mpr (Or.inl live)
  have new : (self.insertRow nextRid tuple).table.Live (nextRid self.table.rids) tuple :=
   live_insertTuple.mpr (Or.inr ⟨rfl, rfl⟩)
  have kept : (insertLoop nextRid rest (self.insertRow nextRid tuple) (count + 1)).1.keys =
   self.keys := (insertLoop_keys ..).trans (keys_insertRow nextRid tuple)
  have hit := distinct.apart (kept.symm ▸ member) (insertLoop_live old) (insertLoop_live new)
   same
  rw [hit] at live
  exact fresh _ live.mem_rids

theorem updateLoop_sound {target : Row → Row} (child : List (Row × RID)) (haveUpdated : List RID)
 (count : ℕ) (reads : ∀ entry ∈ child, entry.2 ∉ haveUpdated → self.table.Live entry.2 entry.1)
 (inOrder : Unobstructed self.keys target child haveUpdated)
 (distinct : (updateLoop nextRid target child self haveUpdated count).1.DistinctKeys) :
 (updateLoop nextRid target child self haveUpdated count).1.Sound := by
 induction child generalizing self haveUpdated count with
 | nil => exact sound
 | cons entry rest ih =>
  obtain ⟨childTuple, childRid⟩ := entry
  have keys : (updateLoop nextRid target ((childTuple, childRid) :: rest) self haveUpdated
   count).1.keys = self.keys := updateLoop_keys ..
  unfold Unobstructed at inOrder
  unfold updateLoop at distinct keys ⊢
  by_cases seen : childRid ∈ haveUpdated
  · simp_all
  · rw [if_neg seen] at inOrder distinct keys ⊢
    have live := reads (childTuple, childRid) mem_cons_self seen
    have liveAfter : ∀ rid tuple, rid ≠ childRid → self.table.Live rid tuple →
     (self.updateRow nextRid target childTuple childRid).table.Live rid tuple :=
     fun rid tuple different old =>
      live_insertTuple.mpr (Or.inl (live_deleted.mpr ⟨different, old⟩))
    apply ih (updateRow_sound fresh sound live _) _ _ _ _ distinct
    · -- A holder of the new key is either still to be updated or there to the end.
      intro key member rid other otherLive different same
      have new : (self.updateRow nextRid target childTuple childRid).table.Live
       (nextRid self.table.rids) (target childTuple) := by
       apply live_insertTuple.mpr
       rw [rids_updateTupleMeta]
       exact Or.inr ⟨rfl, rfl⟩
      have old := liveAfter rid other different otherLive
      by_cases pending : ∃ later ∈ rest, later.2 ∉ childRid :: haveUpdated ∧ later.2 = rid
      · obtain ⟨later, inRest, unseen, own⟩ := pending
        have laterLive := reads later (mem_cons_of_mem _ inRest)
         fun seenLater => unseen (mem_cons_of_mem _ seenLater)
        rw [own] at laterLive
        have holds := otherLive.unique sound.nodup laterLive
        grind
      · have stays : (updateLoop nextRid target rest (self.updateRow nextRid target childTuple
         childRid) (childRid :: haveUpdated) (count + 1)).1.table.Live rid other := by
         apply updateLoop_live old
         intro later inRest unseen own
         exact pending ⟨later, inRest, unseen, own⟩
        have newStays : (updateLoop nextRid target rest (self.updateRow nextRid target
         childTuple childRid) (childRid :: haveUpdated) (count + 1)).1.table.Live
         (nextRid self.table.rids) (target childTuple) := by
         apply updateLoop_live new
         intro later inRest unseen own
         have laterLive := reads later (mem_cons_of_mem _ inRest)
          fun seenLater => unseen (mem_cons_of_mem _ seenLater)
         exact fresh _ (own ▸ laterLive.mem_rids)
        have hit := distinct.apart (keys.symm ▸ member) stays newStays same
        rw [hit] at otherLive
        exact fresh _ otherLive.mem_rids
    · intro later member unseen
      apply liveAfter
      · simp_all
      · simp_all
    · rw [keys_updateRow]
      exact inOrder.2

omit fresh in
theorem deleteLoop_sound (child : List (Row × RID)) (count : ℕ) (reads : ∀ entry ∈ child,
  (∀ key ∈ self.keys, ∀ rid other, self.table.Live rid other →
   key other = key entry.1 → rid = entry.2) ∧
  ∀ other, self.table.Live entry.2 other → other = entry.1) :
 (deleteLoop child self count).1.Sound := by
 induction child generalizing self count with
 | nil => exact sound
 | cons entry rest ih =>
  have first := reads entry mem_cons_self
  apply ih (deleteRow_sound sound first.1 first.2)
  intro later member
  have old := reads later (mem_cons_of_mem _ member)
  constructor
  · intro key inKeys rid other live
    rw [keys_deleteRow] at inKeys
    exact old.1 key inKeys rid other (live_deleted.mp live).2
  · intro other live
    exact old.2 other (live_deleted.mp live).2

/-! ### Statements -/

theorem execute_sound {statement : Statement Row} (legal : Legal nextRid self statement)
 (inOrder : self.InOrder statement) : (self.execute nextRid statement).1.Sound := by
 cases statement with
 | insert child => exact insertLoop_sound fresh sound child 0 legal.distinct
 | update target child =>
  apply updateLoop_sound fresh sound child [] 0 _ inOrder legal.distinct
  intro entry member _
  exact legal.reads entry member
 | delete child =>
  apply deleteLoop_sound sound child 0
  intro entry member
  have live := legal.reads entry member
  constructor
  · intro key inKeys rid other otherLive same
    exact sound.consistent.alone inKeys live otherLive same
  · intro other otherLive
    exact otherLive.unique sound.nodup live

end Loops

def empty (keys : List (Row → Key)) : TableInfo Row Key :=
 { table := [], indexes := keys.map fun key => ⟨key, fun _ => none⟩ }

omit [DecidableEq Key] in
theorem empty_sound (keys : List (Row → Key)) : (empty keys).Sound where
 nodup := nodup_nil
 consistent := by
  intro index member key rid
  obtain ⟨keyFromTuple, _, fresh⟩ := mem_map.mp member
  subst fresh
  constructor
  · intro stored
    cases stored
  · intro held
    obtain ⟨tuple, live, -⟩ := held
    obtain ⟨stored, inHeap, -⟩ := live
    cases inHeap

/-- The indexes agree with the table after every run of statements, when no update gives a
tuple the key of one that it handles later. -/
theorem indexes_consistent {nextRid : List RID → RID} (fresh : ∀ used, nextRid used ∉ used)
 {keys : List (Row → Key)} {statements : List (Statement Row)} {final : TableInfo Row Key}
 (run : Run (Guarded (fun info statement =>
  Legal nextRid info statement ∧ info.InOrder statement)
  (ofFunction fun info statement => some (info.execute nextRid statement).1))
  (empty keys) statements final) : final.Consistent := by
 have sound : final.Sound := by
  apply run.invariant (empty_sound keys)
  intro info statement next before step
  obtain ⟨⟨legal, inOrder⟩, taken⟩ := step
  rw [← Option.some.inj taken]
  exact execute_sound fresh before legal inOrder
 exact sound.consistent

section Examples

def nextSlot (used : List RID) : RID := ⟨0, used.foldr (fun rid top => max (rid.slotNum + 1) top) 0⟩

theorem nextSlot_fresh (used : List RID) : nextSlot used ∉ used := by
 have above : ∀ rid ∈ used, rid.slotNum < (nextSlot used).slotNum := by
  intro rid member
  induction used with
  | nil => cases member
  | cons first rest ih =>
   change rid.slotNum < max (first.slotNum + 1) (nextSlot rest).slotNum
   rcases mem_cons.mp member with same | later
   · rw [same]
     omega
   · have := ih later
     omega
 grind

instance (info : TableInfo Row Key) : Decidable info.DistinctKeys :=
 inferInstanceAs (Decidable (∀ key ∈ info.keys, ∀ first ∈ info.table, ∀ second ∈ info.table,
  first.tupleMeta.isDeleted = false → second.tupleMeta.isDeleted = false →
   key first.tuple = key second.tuple → first.rid = second.rid))

instance [DecidableEq Row] (nextRid : List RID → RID) (info : TableInfo Row Key)
 (statement : Statement Row) : Decidable (Legal nextRid info statement) :=
 decidable_of_iff ((∀ entry ∈ statement.reads, info.table.Live entry.2 entry.1) ∧
  (info.execute nextRid statement).1.DistinctKeys)
  ⟨fun both => ⟨both.1, both.2⟩, fun legal => ⟨legal.reads, legal.distinct⟩⟩

instance (keys : List (Row → Key)) (target : Row → Row) :
 (child : List (Row × RID)) → (haveUpdated : List RID) →
  Decidable (Unobstructed keys target child haveUpdated)
 | [], _ => isTrue trivial
 | entry :: rest, haveUpdated =>
  have _ := instDecidableUnobstructed keys target rest haveUpdated
  have _ := instDecidableUnobstructed keys target rest (entry.2 :: haveUpdated)
  inferInstanceAs (Decidable (if entry.2 ∈ haveUpdated then _ else _))

instance (info : TableInfo Row Key) : (statement : Statement Row) →
 Decidable (info.InOrder statement)
 | .insert _ => isTrue trivial
 | .update target child => inferInstanceAs (Decidable (Unobstructed info.keys target child []))
 | .delete _ => isTrue trivial

/-- Rows `3` and `4` move down by one, then the first of them goes. -/
def shiftedDown : TableInfo ℕ ℕ :=
 let inserted := ((empty [id]).execute nextSlot (.insert [3, 4])).1
 let updated := (inserted.execute nextSlot (.update Nat.pred [(3, ⟨0, 0⟩), (4, ⟨0, 1⟩)])).1
 (updated.execute nextSlot (.delete [(2, ⟨0, 2⟩)])).1

theorem indexes_consistent_shifted_down :
 shiftedDown.Consistent ∧ shiftedDown.indexes.map (·.entries 3) = [some ⟨0, 3⟩] :=
 ⟨indexes_consistent nextSlot_fresh
  (.snoc (.snoc (.snoc .nil
   ⟨by decide, rfl⟩) ⟨by decide, rfl⟩) ⟨by decide, rfl⟩), by decide⟩

/-- Moved up, row `1` does not get the entry of key `2`, and then row `2` deletes it. -/
theorem indexes_inconsistent_shifted_up :
 ¬ ∀ (statements : List (Statement ℕ)) (final : TableInfo ℕ ℕ),
  Run (Guarded (fun info statement => Legal nextSlot info statement)
   (ofFunction fun info statement => some (info.execute nextSlot statement).1))
   (empty [id]) statements final → final.Consistent := by
 intro claim
 have consistent := claim _ _ (.snoc (.snoc .nil
  ⟨(by decide : Legal _ _ (.insert [1, 2])), rfl⟩)
  ⟨(by decide : Legal _ _ (.update Nat.succ [(1, ⟨0, 0⟩), (2, ⟨0, 1⟩)])), rfl⟩)
 have stored := (consistent _ mem_cons_self 2 ⟨0, 2⟩).mpr
  ⟨2, by decide, rfl⟩
 exact absurd stored (by decide)

end Examples

end MyNotes.Cmu15445.TableInfo
