/-
The integrity of a directory over `Remove`, for every directory that has it.

Nothing is asked of the size of a bucket, of the other directories, or of how the
directory came about: it need not be one that `Insert` and `Remove` have built.
-/

import MyNotes.Cmu15445.DiskExtendibleHashTableRemove
import Mathlib.Order.Bounds.Defs

namespace MyNotes.Cmu15445.DiskExtendibleHashTable

open Library.ExtendibleDirectory Relation Function List ExtendibleHTableDirectoryPage

variable {K V : Type}

structure Integrity (hash : K → UInt32) (directory : ExtendibleHTableDirectoryPage)
 (buckets : PageId → ExtendibleHTableBucketPage K V) : Prop where
 depth_le : ∀ slot < directory.size, directory.localDepths slot ≤ directory.globalDepth
 agree : ∀ slot < directory.size, ∀ other < directory.size,
  slot % 2 ^ directory.localDepths slot = other % 2 ^ directory.localDepths slot →
   directory.bucketPageIds slot = directory.bucketPageIds other ∧
    directory.localDepths slot = directory.localDepths other
 slots : ∀ slot < directory.size,
  ((Finset.range directory.size).filter fun other =>
   directory.bucketPageIds other = directory.bucketPageIds slot).card =
    2 ^ (directory.globalDepth - directory.localDepths slot)
 valid : ∀ slot < directory.size, directory.bucketPageIds slot ≠ invalidPageId
 selected : ∀ slot < directory.size,
  ∀ entry ∈ (buckets (directory.bucketPageIds slot)).array,
   directory.bucketPageIds (directory.hashToBucketIndex (hash entry.1)) =
    directory.bucketPageIds slot

/-- The global depth is the local depth of a slot, and no slot has a larger one. -/
def Tight (directory : ExtendibleHTableDirectoryPage) : Prop :=
 IsGreatest {depth | ∃ slot < directory.size, directory.localDepths slot = depth}
  directory.globalDepth

variable {hash : K → UInt32} {directory after : ExtendibleHTableDirectoryPage}
 {buckets : PageId → ExtendibleHTableBucketPage K V}

theorem route_eq (directory : ExtendibleHTableDirectoryPage) (code : UInt32) :
 directory.bucketPageIds (directory.hashToBucketIndex code) =
  directory.view.route code.toNat := by
 rw [hashToBucketIndex_eq]
 rfl

theorem integrity_iff : Integrity hash directory buckets ↔
 Consistent directory.view ∧ Routed hash directory buckets ∧
  ∀ pageId, directory.view.Holds pageId → pageId ≠ invalidPageId := by
 constructor
 · intro integrity
   obtain ⟨depth_le, agree, slots, valid, selected⟩ := integrity
   rw [directory.size_eq] at depth_le agree slots valid selected
   refine ⟨consistent_of_card depth_le (fun slot bound other otherBound low =>
    (agree slot bound other otherBound low).1) slots, ?_, ?_⟩
   · intro pageId ⟨slot, bound, page⟩ entry member
     rw [← page] at member ⊢
     rw [← route_eq]
     exact selected slot bound entry member
   · intro pageId ⟨slot, bound, page⟩
     rw [← page]
     exact valid slot bound
 · intro ⟨consistent, routed, valid⟩
   constructor <;> rw [directory.size_eq]
   · exact consistent.bound
   · intro slot bound other otherBound low
     have page := (consistent.shared slot bound other otherBound).mpr low
     exact ⟨page, consistent.level slot bound other otherBound page⟩
   · exact fun slot bound => consistent.card_slotsOf bound
   · exact fun slot bound => valid _ ⟨slot, bound, rfl⟩
   · intro slot bound entry member
     rw [route_eq]
     exact routed _ ⟨slot, bound, rfl⟩ entry member

/-! ### The loops -/

theorem turns_keep [DecidableEq K] (consistent : Consistent directory.view)
 (routed : Routed hash directory buckets)
 (turns : ReflTransGen (Turn buckets) directory after) :
 Consistent after.view ∧ Routed hash after buckets ∧
  (∀ pageId, after.view.Holds pageId → directory.view.Holds pageId) ∧
  ∀ key, locate hash after buckets key = locate hash directory buckets key := by
 induction turns with
 | refl => simp_all
 | tail _ turn ih =>
  obtain ⟨consistent, routed, holds, located⟩ := ih
  exact ⟨turn.consistent consistent, turn.routed consistent routed,
   fun pageId held => holds pageId (turn.holds held),
   fun key => (turn.locate consistent routed key).trans (located key)⟩

theorem shrinkLoop_stops (fuel : ℕ) (directory : ExtendibleHTableDirectoryPage)
 (enough : directory.globalDepth ≤ fuel) : (shrinkLoop fuel directory).canShrink = false := by
 induction fuel generalizing directory with
 | zero =>
  unfold shrinkLoop canShrink
  rw [if_pos (Nat.le_zero.mp enough)]
 | succ fuel ih =>
  unfold shrinkLoop
  split
  · rename_i shrinks
    have depth := (directory.canShrink_shrunk shrinks).depth
    change directory.globalDepth = directory.decrGlobalDepth.globalDepth + 1 at depth
    exact ih directory.decrGlobalDepth (by omega)
  · simp_all

theorem tight_of_stops (consistent : Consistent directory.view)
 (stops : directory.canShrink = false) : Tight directory := by
 have upper : ∀ slot < 2 ^ directory.globalDepth,
  directory.localDepths slot ≤ directory.globalDepth := consistent.bound
 unfold Tight
 rw [directory.size_eq]
 refine ⟨?_, ?_⟩
 · unfold canShrink at stops
   split at stops
   · rename_i zero
     have first := upper 0 (Nat.two_pow_pos _)
     exact ⟨0, Nat.two_pow_pos _, by omega⟩
   · obtain ⟨slot, member, deep⟩ := all_eq_false.mp stops
     rw [mem_range, directory.size_eq] at member
     grind
 · intro depth ⟨slot, bound, same⟩
   rw [← same]
   exact upper slot bound

/-! ### The bucket of the key -/

section Bucket

variable [DecidableEq K] {bucket : ExtendibleHTableBucketPage K V} {key other : K}

theorem lookup_eraseP_other (different : other ≠ key) :
 ExtendibleHTableBucketPage.lookup
  { bucket with array := bucket.array.eraseP fun entry => entry.1 = key } other =
  bucket.lookup other := by
 unfold ExtendibleHTableBucketPage.lookup
 congr 1
 induction bucket.array with
 | nil => rfl
 | cons entry rest ih =>
  by_cases here : entry.1 = key
  · rw [eraseP_cons_of_pos (by simpa using here), find?_cons_of_neg]
    simpa [here] using different.symm
  · rw [eraseP_cons_of_neg (by simpa using here)]
    by_cases found : entry.1 = other
    · rw [find?_cons_of_pos (by simpa using found),
       find?_cons_of_pos (by simpa using found)]
    · rw [find?_cons_of_neg (by simpa using found),
       find?_cons_of_neg (by simpa using found)]
      exact ih

theorem lookup_eraseP_self
 (once : bucket.array.countP (fun entry => entry.1 = key) ≤ 1) :
 ExtendibleHTableBucketPage.lookup
  { bucket with array := bucket.array.eraseP fun entry => entry.1 = key } key = none := by
 unfold ExtendibleHTableBucketPage.lookup
 rw [Option.map_eq_none_iff]
 dsimp only
 generalize bucket.array = entries at once
 induction entries with
 | nil => rfl
 | cons entry rest ih =>
  by_cases here : entry.1 = key
  · rw [countP_cons_of_pos (by simpa using here)] at once
    rw [eraseP_cons_of_pos (by simpa using here), find?_eq_none]
    exact countP_eq_zero.mp (by omega)
  · rw [countP_cons_of_neg (by simpa using here)] at once
    rw [eraseP_cons_of_neg (by simpa using here),
     find?_cons_of_neg (by simpa using here)]
    exact ih once

end Bucket

/-! ### The call -/

variable [DecidableEq K] {self : DiskExtendibleHashTable K V} {key : K}

theorem getValue_eq_locate (present : self.directoryId (self.owner key) ≠ invalidPageId)
 (valid : (self.directoryOf key).view.route (self.hash key).toNat ≠ invalidPageId) :
 self.getValue key = .ok (locate self.hash (self.directoryOf key) self.buckets key) := by
 have read := self.getBucketPageId_slotOf key
 rw [bucketIdOf_eq] at read
 unfold slotOf directoryOf at read
 unfold getValue
 dsimp only
 rw [getDirectoryPageId_owner, if_neg present, read]
 simp only [bind, Except.bind]
 exact if_neg valid

/-- What `Remove` keeps of the directory of the key; the directory is tight, or nothing was
removed and nothing has changed. -/
structure Preserved (self new : DiskExtendibleHashTable K V) (key : K) (removed : Bool) :
 Prop where
 integrity : Integrity new.hash (new.directoryOf key) new.buckets
 others : ∀ other, self.owner other = self.owner key → other ≠ key →
  new.getValue other = self.getValue other
 gone : (self.bucketOf key).array.countP (fun entry => entry.1 = key) ≤ 1 →
  new.getValue key = .ok none
 tight : removed = true → Tight (new.directoryOf key)
 unchanged : removed = false → new = self

theorem preserved_of_turns (present : self.directoryId (self.owner key) ≠ invalidPageId)
 (integrity : Integrity self.hash (self.directoryOf key) self.buckets)
 {erased : ExtendibleHTableBucketPage K V}
 (isErased : erased = { self.bucketOf key with
  array := (self.bucketOf key).array.eraseP fun entry => entry.1 = key })
 (turns : ReflTransGen (Turn (update self.buckets (self.bucketIdOf key) erased))
  (self.directoryOf key) after)
 (stops : after.canShrink = false) :
 Preserved self ((self.setBucket (self.bucketIdOf key) erased).setDirectory
  (self.directoryId (self.owner key)) after) key true := by
 obtain ⟨consistent, routed, valid⟩ := integrity_iff.mp integrity
 have sublist : ∀ pageId, ∀ entry ∈
  (update self.buckets (self.bucketIdOf key) erased pageId).array,
   entry ∈ (self.buckets pageId).array := by
  intro pageId entry member
  by_cases own : pageId = self.bucketIdOf key
  · rw [own, update_self, isErased] at member
    rw [own]
    exact mem_of_mem_eraseP member
  · simp_all
 obtain ⟨newConsistent, newRouted, holds, located⟩ := turns_keep consistent
  (fun pageId held entry member => routed pageId held entry (sublist pageId entry member)) turns
 generalize isNew : (self.setBucket (self.bucketIdOf key) erased).setDirectory
  (self.directoryId (self.owner key)) after = new
 have hashes : new.hash = self.hash := by rw [← isNew]; rfl
 have owners : ∀ other, new.owner other = self.owner other := by
  intro other
  rw [← isNew]
  rfl
 have directories : ∀ other, self.owner other = self.owner key →
  new.directoryId (new.owner other) ≠ invalidPageId ∧ new.directoryOf other = after := by
  intro other same
  unfold directoryOf
  rw [owners, same, ← isNew]
  exact ⟨present, update_self _ _ _⟩
 have pages : new.buckets = update self.buckets (self.bucketIdOf key) erased := by
  rw [← isNew]
  rfl
 -- A key of the directory is looked up in the old directory and the new buckets.
 have reads : ∀ other, self.owner other = self.owner key → new.getValue other =
  .ok (locate self.hash (self.directoryOf key)
   (update self.buckets (self.bucketIdOf key) erased) other) := by
  intro other same
  obtain ⟨newPresent, newDirectory⟩ := directories other same
  rw [getValue_eq_locate newPresent, newDirectory, hashes, pages, located]
  rw [newDirectory]
  exact valid _ (holds _ (holds_route _ _))
 refine ⟨?_, ?_, ?_, ?_, nofun⟩
 · rw [(directories key rfl).2, hashes, pages]
   exact integrity_iff.mpr ⟨newConsistent, newRouted, fun pageId held =>
    valid pageId (holds pageId held)⟩
 · intro other same different
   have directory : self.directoryOf other = self.directoryOf key := by
    unfold directoryOf
    rw [same]
   rw [reads other same, getValue_eq_locate (same ▸ present)
    (directory ▸ valid _ (holds_route _ _)), directory]
   unfold locate
   by_cases here : (self.directoryOf key).view.route (self.hash other).toNat =
    self.bucketIdOf key
   · rw [here, update_self, isErased, lookup_eraseP_other different]
     rfl
   · rw [update_of_ne here]
 · intro once
   rw [reads key rfl]
   unfold locate
   rw [← bucketIdOf_eq, update_self, isErased, lookup_eraseP_self once]
 · intro _
   rw [(directories key rfl).2]
   exact tight_of_stops newConsistent stops

/-- `Remove` of a key whose directory has its integrity ends, keeps the integrity and every other
key, and takes the key away if the bucket has it once; where something was removed the directory
is as small as it can be. -/
theorem remove_preserves_integrity (update : DirectoryUpdate) (updates : Updates update)
 (self : DiskExtendibleHashTable K V) (key : K)
 (present : self.directoryId (self.owner key) ≠ invalidPageId)
 (integrity : Integrity self.hash (self.directoryOf key) self.buckets) :
 ∃ new removed, self.remove update key = .ok (new, removed) ∧
  Preserved self new key removed := by
 obtain ⟨consistent, routed, valid⟩ := integrity_iff.mp integrity
 have directory : self.directories (self.directoryId (self.owner key)) =
  self.directoryOf key := rfl
 have slot : (self.directoryOf key).hashToBucketIndex (self.hash key) = self.slotOf key := rfl
 have bucket : self.buckets (self.bucketIdOf key) = self.bucketOf key := rfl
 have bound : self.slotOf key < 2 ^ (self.directoryOf key).globalDepth :=
  ExtendibleHTableDirectoryPage.hashToBucketIndex_lt _ _
 have validId : self.bucketIdOf key ≠ invalidPageId := by
  rw [bucketIdOf_eq]
  exact valid _ (holds_route _ _)
 unfold remove
 dsimp only
 rw [getDirectoryPageId_owner, if_neg present, directory, slot, getBucketPageId_slotOf]
 simp only [bind, Except.bind]
 rw [if_neg validId, bucket]
 cases found : (self.bucketOf key).lookup key with
 | none =>
  rw [ExtendibleHTableBucketPage.remove_absent found]
  refine ⟨_, false, rfl, ?_⟩
  rw [← bucket, setBucket_same]
  refine ⟨integrity, fun _ _ _ => rfl, fun _ => ?_, nofun, fun _ => rfl⟩
  rw [getValue_eq_locate present (valid _ (holds_route _ _)), ← lookup_bucketOf, found]
 | some value =>
  rw [ExtendibleHTableBucketPage.remove_present found]
  dsimp only
  rw [Bool.not_true, if_neg Bool.false_ne_true,
   ExtendibleHTableDirectoryPage.getLocalDepth_ok bound]
  dsimp only
  have looped : ∃ merged, mergeLoop update (self.setBucket (self.bucketIdOf key)
   { self.bucketOf key with
    array := (self.bucketOf key).array.eraseP fun entry => entry.1 = key }).buckets
   (self.slotOf key) (self.directoryOf key).globalDepth
   ((self.directoryOf key).localDepths (self.slotOf key)) (self.directoryOf key)
   (self.bucketIdOf key) ((self.directoryOf key).localDepths (self.slotOf key)) =
    .ok merged ∧
   ReflTransGen (Turn (self.setBucket (self.bucketIdOf key) { self.bucketOf key with
    array := (self.bucketOf key).array.eraseP fun entry => entry.1 = key }).buckets)
    (self.directoryOf key) merged :=
   mergeLoop_turns updates _ consistent bound rfl (Nat.le_refl _)
  obtain ⟨merged, done, turns⟩ := looped
  rw [done]
  exact ⟨_, true, rfl, preserved_of_turns present integrity rfl
   (turns.trans (shrinkLoop_turns _ merged.globalDepth merged))
   (shrinkLoop_stops _ _ (Nat.le_refl _))⟩

/-! ### Three tables -/

/-- `UpdateDirectoryMapping` as the merge needs it. -/
def setMapping : DirectoryUpdate := fun directory bucketIdx bucketPageId localDepth _ =>
 { directory with
  localDepths := update directory.localDepths bucketIdx localDepth
  bucketPageIds := update directory.bucketPageIds bucketIdx bucketPageId }

/-- One directory, on page 0, whose slots all have one local depth; the key is its own hash, and
bucket 1 has the entries. -/
def oneDirectory (globalDepth localDepth : ℕ) (entries : List (ℕ × ℕ)) :
 DiskExtendibleHashTable ℕ ℕ :=
 { hash := Nat.toUInt32
   directoryMaxDepth := 2
   bucketMaxSize := 2
   headerPage := ⟨0, fun _ => 0⟩
   directories := fun _ =>
    { maxDepth := 2
      globalDepth := globalDepth
      localDepths := fun _ => localDepth
      bucketPageIds := fun slot => if slot % 2 ^ localDepth = 0 then 1 else 2 }
   buckets := fun pageId => ⟨2, if pageId = 1 then entries else []⟩
   nextPageId := 3 }

theorem remove_preserves_integrity_merging :
 ∃ new removed, (oneDirectory 1 1 [(0, 7)]).remove setMapping 0 = .ok (new, removed) ∧
  Preserved (oneDirectory 1 1 [(0, 7)]) new 0 removed :=
 remove_preserves_integrity setMapping (fun _ _ _ _ _ => rfl) (oneDirectory 1 1 [(0, 7)]) 0
  (by decide) ⟨by decide, by decide, by decide, by decide, by decide⟩

/-- A key that is absent leaves a directory that could be smaller as it is, and of two entries
with one key the second is still found. -/
theorem remove_leaves_loose_and_second :
 (Integrity Nat.toUInt32 ((oneDirectory 1 0 []).directoryOf 0) (oneDirectory 1 0 []).buckets ∧
  ∃ new, (oneDirectory 1 0 []).remove setMapping 0 = .ok (new, false) ∧
   ¬ Tight (new.directoryOf 0)) ∧
 (Integrity Nat.toUInt32 ((oneDirectory 0 0 [(0, 7), (0, 8)]).directoryOf 0)
  (oneDirectory 0 0 [(0, 7), (0, 8)]).buckets ∧
  ∃ new, (oneDirectory 0 0 [(0, 7), (0, 8)]).remove setMapping 0 = .ok (new, true) ∧
   new.getValue 0 = .ok (some 8)) := by
 refine ⟨⟨⟨by decide, by decide, by decide, by decide, by decide⟩, _, rfl, ?_⟩,
  ⟨by decide, by decide, by decide, by decide, by decide⟩, _, rfl, rfl⟩
 intro tight
 obtain ⟨slot, -, deep⟩ := tight.1
 cases deep

end MyNotes.Cmu15445.DiskExtendibleHashTable
