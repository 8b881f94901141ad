/-
`Insert` of the extendible hash table.

One call of the body answers, or splits the key's bucket and calls itself again.
The split is right when the local depth is the global depth, or one less with the
bucket in the lower half; after it the key's bucket is at full depth, so that all
later splits of the same `Insert` are right.
-/

import MyNotes.Cmu15445.DiskExtendibleHashTableSound

namespace MyNotes.Cmu15445.DiskExtendibleHashTable

open Library.ExtendibleDirectory Library.LowBits Function ExtendibleHTableBucketPage Nat

variable {K V : Type} [DecidableEq K] {self new : DiskExtendibleHashTable K V} {key : K}

/-- When `Insert` splits a bucket that several slots share, these are two slots, and
the key's is in the lower half. -/
def Splittable (self : DiskExtendibleHashTable K V) (key : K) : Prop :=
 self.directoryId (self.owner key) ≠ invalidPageId →
  (self.bucketOf key).lookup key = none → (self.bucketOf key).isFull = true →
   (self.directoryOf key).localDepths (self.slotOf key) <
    (self.directoryOf key).globalDepth →
    (self.directoryOf key).localDepths (self.slotOf key) + 1 =
     (self.directoryOf key).globalDepth ∧
     self.slotOf key < 2 ^ ((self.directoryOf key).globalDepth - 1)

def Deep (self : DiskExtendibleHashTable K V) (key : K) : Prop :=
 self.directoryId (self.owner key) ≠ invalidPageId ∧
  (self.directoryOf key).localDepths (self.slotOf key) = (self.directoryOf key).globalDepth

theorem Deep.splittable (deep : self.Deep key) : self.Splittable key :=
 fun _ _ _ shallow => absurd deep.2 shallow.ne

structure SameShape (old new : DiskExtendibleHashTable K V) : Prop where
 hash : new.hash = old.hash
 directoryMaxDepth : new.directoryMaxDepth = old.directoryMaxDepth
 bucketMaxSize : new.bucketMaxSize = old.bucketMaxSize

variable {directory : ExtendibleHTableDirectoryPage}

omit [DecidableEq K] in
theorem Rebuilt.sameShape {index : ℕ} {pageId : PageId}
 (rebuilt : Rebuilt self new index pageId directory) : SameShape self new :=
 ⟨rebuilt.hash, rebuilt.directoryMaxDepth, rebuilt.bucketMaxSize⟩

variable {last : DiskExtendibleHashTable K V}

omit [DecidableEq K] in
theorem SameShape.trans (first : SameShape self new) (second : SameShape new last) :
 SameShape self last :=
 ⟨second.hash.trans first.hash, second.directoryMaxDepth.trans first.directoryMaxDepth,
  second.bucketMaxSize.trans first.bucketMaxSize⟩

/-! ### A split -/

/-- The table after a split whose directory is `after`. -/
def splitTable (self : DiskExtendibleHashTable K V) (directoryPageId : PageId)
 (after : ExtendibleHTableDirectoryPage) (bucketPageId : PageId) :
 DiskExtendibleHashTable K V :=
 { self with
  directories := update self.directories directoryPageId after
  buckets := update (update self.buckets bucketPageId
   ⟨self.bucketMaxSize, (self.buckets bucketPageId).array.filter fun entry =>
    after.view.route (self.hash entry.1).toNat = bucketPageId⟩) self.nextPageId
   ⟨self.bucketMaxSize, (self.buckets bucketPageId).array.filter fun entry =>
    after.view.route (self.hash entry.1).toNat ≠ bucketPageId⟩
  nextPageId := self.nextPageId + 1 }

variable {bucketIndex : ℕ} {bucketPageId : PageId}

theorem splitBucket_eq {after : ExtendibleHTableDirectoryPage} (directoryPageId : PageId)
 (splits : splitDirectory directory bucketIndex self.nextPageId = .ok after)
 (distinct : (self.buckets bucketPageId).Distinct)
 (fits : (self.buckets bucketPageId).array.length ≤ self.bucketMaxSize) :
 self.splitBucket directoryPageId directory bucketIndex bucketPageId =
  .ok (self.splitTable directoryPageId after bucketPageId) := by
 have redistribution := redistribute_fold self.hash after bucketPageId
  (self.buckets bucketPageId).array
  (.init self.bucketMaxSize, .init self.bucketMaxSize) distinct
  (fun _ _ => ⟨rfl, rfl⟩) (by simpa [init] using fits)
  (by simpa [init] using fits)
 unfold splitBucket
 dsimp only
 rw [splits]
 simp only [bind, Except.bind]
 rw [redistribution]
 rfl

omit [DecidableEq K] in
theorem splitTable_redistributed (after : ExtendibleHTableDirectoryPage) (directoryPageId : PageId)
 (different : bucketPageId ≠ self.nextPageId) :
 Redistributed self.hash self.bucketMaxSize after self.buckets
  (self.splitTable directoryPageId after bucketPageId).buckets bucketPageId
  self.nextPageId := by
 unfold splitTable
 refine ⟨?_, ?_, ?_⟩
 · simp_all
 · dsimp only
   rw [update_self]
 · simp_all

theorem splitBucket_ok (sound : self.Sound) {index : ℕ}
 (present : self.directoryId index ≠ invalidPageId)
 (own : DirectorySound self.hash self.bucketMaxSize (fun key => self.owner key = index)
  directory self.buckets) (maxDepth : directory.maxDepth = self.directoryMaxDepth)
 (pages : ∀ pageId, directory.view.Holds pageId → self.Holds index pageId)
 (local_eq : directory.localDepths bucketIndex + 1 = directory.globalDepth)
 (lower : bucketIndex < 2 ^ (directory.globalDepth - 1)) :
 ∃ after new, self.splitBucket (self.directoryId index) directory bucketIndex
  (directory.bucketPageIds bucketIndex) = .ok new ∧
  Rebuilt self new index (self.directoryId index) after ∧ new.Sound ∧
  Split directory.view after.view bucketIndex self.nextPageId ∧
  after.globalDepth = directory.globalDepth ∧
  ∀ key, self.owner key = index →
   new.find key = locate self.hash directory self.buckets key := by
 have unused : ∀ slot < 2 ^ directory.globalDepth,
  directory.bucketPageIds slot ≠ self.nextPageId := by
  intro slot bound same
  have range := (sound.bucket_range index _ (pages _ ⟨slot, bound, rfl⟩)).2
  exact absurd same range.ne
 obtain ⟨after, splits, split, afterMax, afterDepth⟩ :=
  splitDirectory_ok self.nextPageId local_eq lower unused
 have holds : directory.view.Holds (directory.bucketPageIds bucketIndex) :=
  ⟨bucketIndex, split.bound, rfl⟩
 have redistributed := self.splitTable_redistributed after (self.directoryId index)
  (unused bucketIndex split.bound)
 have rebuilt : Rebuilt self
  (self.splitTable (self.directoryId index) after (directory.bucketPageIds bucketIndex)) index
  (self.directoryId index) after := by
  refine ⟨rfl, rfl, rfl, rfl, present, .inl rfl, ?_, ?_, ?_, ?_, ?_⟩
  · intro other
    change self.directoryId other = _
    by_cases same : other = index
    · rw [if_pos same, same]
    · rw [if_neg same]
  · intro other
    exact update_apply _ _ _ _
  · intro pageId below notHeld
    apply redistributed.others pageId
    · grind
    · exact below.ne
  · exact (Int.lt_succ _).le
  · exact (sound.directory_lt index present).trans (Int.lt_succ _)
 refine ⟨after, _, splitBucket_eq _ splits (own.distinct _ holds) (own.fits _ holds), rebuilt,
  rebuilt.sound sound ?_ (afterMax.trans maxDepth)
   (own.split split afterMax afterDepth redistributed), split, afterDepth, ?_⟩
 · intro pageId held
   cases split.holds held with
   | inl isFresh =>
    rw [isFresh]
    exact ⟨sound.next, Int.lt_succ _, .inr (le_refl _)⟩
   | inr was =>
    have range := sound.bucket_range index pageId (pages pageId was)
    exact ⟨range.1, range.2.trans (Int.lt_succ _), .inl (pages pageId was)⟩
 · intro key owns
   exact (rebuilt.find_own owns).trans (own.locate_split split redistributed key)

/-! ### What a call leaves -/

/-- Nothing is found that was not, and nothing is lost. -/
structure Kept (old new : DiskExtendibleHashTable K V) : Prop where
 sound : new.Sound
 shape : SameShape old new
 find : ∀ key, new.find key = old.find key

/-- The pair is found, and nothing else has changed. -/
structure Inserted (old new : DiskExtendibleHashTable K V) (key : K) (value : V) : Prop where
 sound : new.Sound
 shape : SameShape old new
 absent : old.find key = none
 find : ∀ other, new.find other = if other = key then some value else old.find other

theorem Kept.refl (sound : self.Sound) : Kept self self := ⟨sound, ⟨rfl, rfl, rfl⟩, fun _ => rfl⟩

theorem Kept.trans (first : Kept self new) (second : Kept new last) : Kept self last :=
 ⟨second.sound, first.shape.trans second.shape,
  fun key => (second.find key).trans (first.find key)⟩

theorem Kept.inserted {value : V} (first : Kept self new) (second : Inserted new last key value) :
 Inserted self last key value := by
 refine ⟨second.sound, first.shape.trans second.shape, ?_, ?_⟩
 · rw [← first.find]
   exact second.absent
 · intro other
   rw [second.find, first.find]

theorem insert_init {size : ℕ} (positive : 1 ≤ size) (key : K) (value : V) :
 (init size).insert key value = (⟨size, [(key, value)]⟩, true) := by
 apply insert_new rfl
 change (0 == size) = false
 exact beq_false_of_ne (by omega)

/-- The directory that `InsertToNewDirectory` makes. -/
def singleBucket (maxDepth : ℕ) (bucketPageId : PageId) : ExtendibleHTableDirectoryPage :=
 { ExtendibleHTableDirectoryPage.init maxDepth with
  bucketPageIds := update (fun _ => invalidPageId) 0 bucketPageId }

theorem singleBucket_holds {maxDepth : ℕ} {pageId : PageId}
 (holds : (singleBucket maxDepth bucketPageId).view.Holds pageId) : pageId = bucketPageId := by
 obtain ⟨slot, bound, same⟩ := holds
 have zero : slot = 0 := lt_one_iff.mp bound
 rw [← same, zero]
 change update (fun _ : ℕ => invalidPageId) 0 bucketPageId 0 = bucketPageId
 rw [update_self]

theorem singleBucket_route (maxDepth : ℕ) (bucketPageId : PageId) (code : ℕ) :
 (singleBucket maxDepth bucketPageId).view.route code = bucketPageId :=
 singleBucket_holds (holds_route _ code)

omit [DecidableEq K] in
theorem singleBucket_sound (hash : K → UInt32) {size : ℕ} (positive : 1 ≤ size)
 (maxDepth : ℕ) (bucketPageId : PageId) (owned : K → Prop) (owns : owned key) (value : V)
 {buckets : PageId → ExtendibleHTableBucketPage K V}
 (bucket : buckets bucketPageId = ⟨size, [(key, value)]⟩) :
 DirectorySound hash size owned (singleBucket maxDepth bucketPageId) buckets where
 consistent := by
  refine ⟨fun _ _ => le_refl 0, fun _ _ _ _ _ => rfl, ?_⟩
  intro slot bound other otherBound
  rw [lt_one_iff.mp bound, lt_one_iff.mp otherBound]
  exact iff_of_true rfl rfl
 depth_le := zero_le _
 placed := by
  intro pageId holds entry member
  rw [singleBucket_holds holds, bucket] at member
  rw [List.mem_singleton.mp member, singleBucket_route, singleBucket_holds holds]
  exact ⟨owns, rfl⟩
 distinct := by
  intro pageId holds
  rw [singleBucket_holds holds, bucket]
  exact List.nodup_singleton _
 maxSize := by
  intro pageId holds
  rw [singleBucket_holds holds, bucket]
 fits := by
  intro pageId holds
  rw [singleBucket_holds holds, bucket]
  exact positive

/-- The table after the first key of a header index. -/
def withDirectory (self : DiskExtendibleHashTable K V) (key : K) (value : V) :
 DiskExtendibleHashTable K V :=
 let directoryPageIds :=
  update self.headerPage.directoryPageIds (self.owner key) self.nextPageId
 { self with
  headerPage := { self.headerPage with directoryPageIds := directoryPageIds }
  directories := update self.directories self.nextPageId
   (singleBucket self.directoryMaxDepth (self.nextPageId + 1))
  buckets := update self.buckets (self.nextPageId + 1)
   ⟨self.bucketMaxSize, [(key, value)]⟩
  nextPageId := self.nextPageId + 1 + 1 }

theorem insertToNewDirectory_eq (positive : 1 ≤ self.bucketMaxSize) (key : K) (value : V) :
 self.insertToNewDirectory (self.owner key) key value =
  .ok (self.withDirectory key value, true) := by
 have bound : self.owner key < self.headerPage.maxSize :=
  self.headerPage.hashToDirectoryIndex_lt (self.hash key)
 have slot : (ExtendibleHTableDirectoryPage.init self.directoryMaxDepth).hashToBucketIndex
  (self.hash key) = 0 :=
  Nat.lt_one_iff.mp (ExtendibleHTableDirectoryPage.hashToBucketIndex_lt _ _)
 have inDirectory : (ExtendibleHTableDirectoryPage.init self.directoryMaxDepth).setBucketPageId 0
  (self.nextPageId + 1) = .ok (singleBucket self.directoryMaxDepth (self.nextPageId + 1)) :=
  ExtendibleHTableDirectoryPage.setBucketPageId_ok Nat.one_pos _
 unfold insertToNewDirectory ExtendibleHTableHeaderPage.setDirectoryPageId
 dsimp only
 rw [if_neg (Nat.not_le.mpr bound)]
 simp only [bind, Except.bind]
 unfold insertToNewBucket setDirectory setBucket
 dsimp only
 rw [update_self, slot, inDirectory]
 simp only [bind, Except.bind]
 rw [insert_init positive, update_idem]
 rfl

section

variable (sound : self.Sound)
include sound

omit [DecidableEq K] in
theorem withDirectory_rebuilt (missing : self.directoryId (self.owner key) = invalidPageId)
 (value : V) :
 Rebuilt self (self.withDirectory key value) (self.owner key) self.nextPageId
  (singleBucket self.directoryMaxDepth (self.nextPageId + 1)) := by
 have next := sound.next
 refine ⟨rfl, rfl, rfl, rfl, ?_, .inr ⟨missing, le_refl _⟩, ?_, ?_, ?_, ?_, ?_⟩
 · intro invalid
   rw [invalid] at next
   exact absurd next (by decide)
 · intro other
   exact update_apply _ _ _ _
 · intro other
   exact update_apply _ _ _ _
 · intro pageId below _
   exact update_of_ne (below.trans (Int.lt_succ _)).ne _ _
 · exact ((Int.lt_succ _).trans (Int.lt_succ _)).le
 · exact (Int.lt_succ _).trans (Int.lt_succ _)

theorem withDirectory_inserted (positive : 1 ≤ self.bucketMaxSize)
 (missing : self.directoryId (self.owner key) = invalidPageId) (value : V) :
 Inserted self (self.withDirectory key value) key value := by
 have rebuilt := withDirectory_rebuilt sound missing value
 have bucket : (self.withDirectory key value).buckets (self.nextPageId + 1) =
  ⟨self.bucketMaxSize, [(key, value)]⟩ := update_self _ _ _
 have own := singleBucket_sound self.hash positive self.directoryMaxDepth (self.nextPageId + 1)
  (fun other => self.owner other = self.owner key) rfl value bucket
 refine ⟨rebuilt.sound sound ?_ rfl own, rebuilt.sameShape, if_pos missing, ?_⟩
 · intro pageId holds
   rw [singleBucket_holds holds]
   have next := sound.next
   refine ⟨?_, Int.lt_succ _, .inr (Int.lt_succ _).le⟩
   exact next.trans (Int.lt_succ _).le
 · intro other
   by_cases own : self.owner other = self.owner key
   · have nothing : self.find other = none := by
      unfold find
      rw [own, if_pos missing]
     rw [rebuilt.find_own own, nothing]
     unfold locate
     rw [singleBucket_route, bucket]
     unfold lookup
     by_cases same : other = key
     · rw [if_pos same, same, List.find?_cons_of_pos (by simp)]
       rfl
     · rw [if_neg same, List.find?_cons_of_neg (by simpa using Ne.symm same)]
       rfl
   · rw [rebuilt.find_other sound own, if_neg]
     intro same
     exact own (by rw [same])

theorem append_inserted (present : self.directoryId (self.owner key) ≠ invalidPageId)
 (absent : (self.bucketOf key).lookup key = none) (room : (self.bucketOf key).isFull = false)
 (value : V) :
 Inserted self (self.setBucket (self.bucketIdOf key)
  { self.bucketOf key with array := (self.bucketOf key).array ++ [(key, value)] }) key
  value := by
 obtain ⟨held, -⟩ := sound.bucketIdOf_held present
 obtain ⟨maxDepth, own⟩ := sound.directoryOf_sound present
 have distinct : (self.bucketOf key).Distinct := own.distinct _ held.2
 have maxSize : (self.bucketOf key).maxSize = self.bucketMaxSize := own.maxSize _ held.2
 have fits : (self.bucketOf key).array.length ≤ self.bucketMaxSize := own.fits _ held.2
 have rebuilt := setBucket_rebuilt sound held
  { self.bucketOf key with array := (self.bucketOf key).array ++ [(key, value)] }
 refine ⟨rebuilt.sound sound (rebuilt.range_of_held sound fun _ holds => ⟨present, holds⟩)
  maxDepth (own.setBucket _ ?_ (distinct_append distinct absent value)
   maxSize ?_), rebuilt.sameShape, ?_, ?_⟩
 · intro entry member
   cases List.mem_append.mp member with
   | inl old => exact own.placed _ held.2 entry old
   | inr single =>
    rw [List.mem_singleton.mp single, bucketIdOf_eq]
    exact ⟨rfl, rfl⟩
 · unfold isFull at room
   rw [maxSize] at room
   have notFull := ne_of_beq_false room
   grind
 · unfold find
   rw [if_neg present]
   exact absent
 · intro other
   by_cases owns : self.owner other = self.owner key
   · rw [rebuilt.find_own owns, find_of_owner owns present]
     unfold locate
     change (update self.buckets (self.bucketIdOf key) _
      ((self.directoryOf key).view.route (self.hash other).toNat)).lookup other = _
     by_cases same : other = key
     · rw [if_pos same, same, ← bucketIdOf_eq, update_self]
       exact lookup_append_self absent value
     · rw [if_neg same]
       by_cases here : (self.directoryOf key).view.route (self.hash other).toNat =
        self.bucketIdOf key
       · rw [here, update_self]
         exact (self.bucketOf key).lookup_append_other same value
       · rw [update_of_ne here]
   · rw [rebuilt.find_other sound owns, if_neg]
     intro same
     exact owns (by rw [same])

theorem split_kept (present : self.directoryId (self.owner key) ≠ invalidPageId)
 (own : DirectorySound self.hash self.bucketMaxSize
  (fun other => self.owner other = self.owner key) directory self.buckets)
 (maxDepth : directory.maxDepth = self.directoryMaxDepth)
 (pages : ∀ pageId, directory.view.Holds pageId → self.Holds (self.owner key) pageId)
 (unmoved : ∀ other, locate self.hash directory self.buckets other =
  locate self.hash (self.directoryOf key) self.buckets other)
 (local_eq : directory.localDepths bucketIndex + 1 = directory.globalDepth)
 (lower : bucketIndex < 2 ^ (directory.globalDepth - 1))
 (slot : bucketIndex % 2 ^ directory.localDepths bucketIndex =
  (self.hash key).toNat % 2 ^ directory.localDepths bucketIndex) :
 ∃ new, self.splitBucket (self.directoryId (self.owner key)) directory bucketIndex
  (directory.bucketPageIds bucketIndex) = .ok new ∧
  Kept self new ∧ new.Deep key ∧
  (new.directoryOf key).globalDepth = directory.globalDepth := by
 obtain ⟨after, new, done, rebuilt, newSound, split, depth, found⟩ :=
  splitBucket_ok sound present own maxDepth pages local_eq lower
 have directoryNew : new.directoryOf key = after := rebuilt.directoryOf_own rfl
 refine ⟨new, done, ⟨newSound, rebuilt.sameShape, ?_⟩, ⟨?_, ?_⟩, ?_⟩
 · intro other
   by_cases owns : self.owner other = self.owner key
   · rw [found other owns, unmoved, find_of_owner owns present]
   · exact rebuilt.find_other sound owns
 · rw [rebuilt.owner_eq, rebuilt.own_directory.1]
   exact present
 · rw [slotOf_eq, directoryNew, rebuilt.hash, depth]
   have bound : (self.hash key).toNat % 2 ^ directory.globalDepth < 2 ^ directory.globalDepth :=
    Nat.mod_lt _ (Nat.two_pow_pos _)
   have inside := (split.inside _ bound (by
    rw [mod_mod_two_pow _ (by rw [← local_eq]; exact Nat.le_succ _)]
    exact slot.symm)).1
   exact inside.trans local_eq
 · rw [directoryNew, depth]

/-! ### The call -/

/-- What one call of the body leaves, by its answer. -/
def Outcome (old new : DiskExtendibleHashTable K V) (key : K) (value : V) : Option Bool → Prop
 | some true => Inserted old new key value
 | some false => Kept old new
 | none => Kept old new ∧ new.Deep key ∧
  (old.Deep key → (new.directoryOf key).globalDepth = (old.directoryOf key).globalDepth + 1)

theorem grow_kept (present : self.directoryId (self.owner key) ≠ invalidPageId)
 (full : (self.directoryOf key).localDepths (self.slotOf key) =
  (self.directoryOf key).globalDepth)
 (room : (self.directoryOf key).globalDepth < (self.directoryOf key).maxDepth) :
 ∃ new, self.splitBucket (self.directoryId (self.owner key))
  (self.directoryOf key).incrGlobalDepth (self.slotOf key) (self.bucketIdOf key) =
   .ok new ∧
  Kept self new ∧ new.Deep key ∧
  (new.directoryOf key).globalDepth = (self.directoryOf key).globalDepth + 1 := by
 obtain ⟨maxDepth, own⟩ := sound.directoryOf_sound present
 have grown := (self.directoryOf key).incrGlobalDepth_grown
 have bound : self.slotOf key < 2 ^ (self.directoryOf key).globalDepth :=
  ExtendibleHTableDirectoryPage.hashToBucketIndex_lt _ _
 have wide : self.slotOf key < 2 ^ ((self.directoryOf key).globalDepth + 1) := by
  rw [pow_succ]
  omega
 have localDepth : (self.directoryOf key).incrGlobalDepth.localDepths (self.slotOf key) =
  (self.directoryOf key).globalDepth := by
  have copied := grown.localDepth (self.slotOf key) wide
  change _ = (self.directoryOf key).localDepths
   (self.slotOf key % 2 ^ (self.directoryOf key).globalDepth) at copied
  rw [mod_eq_of_lt bound, full] at copied
  exact copied
 have page : (self.directoryOf key).incrGlobalDepth.bucketPageIds (self.slotOf key) =
  self.bucketIdOf key := by
  have copied := grown.page (self.slotOf key) wide
  change _ = (self.directoryOf key).bucketPageIds
   (self.slotOf key % 2 ^ (self.directoryOf key).globalDepth) at copied
  rw [mod_eq_of_lt bound] at copied
  exact copied
 have split := split_kept sound present (own.grow room)
  ((self.directoryOf key).incrGlobalDepth_maxDepth.trans maxDepth)
  (fun _ holds => ⟨present, grown.holds holds⟩)
  (locate_grow self.hash (self.directoryOf key) self.buckets)
  (congrArg (· + 1) localDepth) bound
  (by rw [localDepth, slotOf_eq, mod_mod])
 rw [page] at split
 exact split

theorem shallow_kept (present : self.directoryId (self.owner key) ≠ invalidPageId)
 (local_eq : (self.directoryOf key).localDepths (self.slotOf key) + 1 =
  (self.directoryOf key).globalDepth)
 (lower : self.slotOf key < 2 ^ ((self.directoryOf key).globalDepth - 1)) :
 ∃ new, self.splitBucket (self.directoryId (self.owner key)) (self.directoryOf key)
  (self.slotOf key) (self.bucketIdOf key) = .ok new ∧
  Kept self new ∧ new.Deep key := by
 obtain ⟨maxDepth, own⟩ := sound.directoryOf_sound present
 obtain ⟨new, done, kept, deep, -⟩ := split_kept sound present own maxDepth
  (fun _ holds => ⟨present, holds⟩) (fun _ => rfl) local_eq lower
  (by rw [slotOf_eq, mod_mod_two_pow _ (by rw [← slotOf_eq, ← local_eq]; exact le_succ _)])
 exact ⟨new, done, kept, deep⟩

theorem insertOnce_ok (positive : 1 ≤ self.bucketMaxSize) (splittable : self.Splittable key)
 (value : V) :
 ∃ new answer, self.insertOnce key value = .ok (new, answer) ∧
  Outcome self new key value answer := by
 unfold insertOnce
 dsimp only
 rw [getDirectoryPageId_owner]
 by_cases missing : self.directoryId (self.owner key) = invalidPageId
 · rw [if_pos missing]
   have made := self.insertToNewDirectory_eq positive key value
   unfold owner at made
   rw [made]
   exact ⟨_, some true, rfl, withDirectory_inserted sound positive missing value⟩
 · have bound : self.slotOf key < 2 ^ (self.directoryOf key).globalDepth :=
    ExtendibleHTableDirectoryPage.hashToBucketIndex_lt _ _
   rw [if_neg missing, ← directoryOf, ← slotOf, getBucketPageId_slotOf]
   simp only [bind, Except.bind]
   rw [if_neg (sound.bucketIdOf_held missing).2, ← bucketOf]
   cases found : (self.bucketOf key).lookup key with
   | some old =>
    rw [Option.isSome_some, if_pos rfl]
    exact ⟨self, some false, rfl, Kept.refl sound⟩
   | none =>
    rw [Option.isSome_none, if_neg Bool.false_ne_true]
    cases full : (self.bucketOf key).isFull with
    | false =>
     rw [Bool.not_false, if_pos rfl, insert_new found full]
     exact ⟨_, some true, rfl, append_inserted sound missing found full value⟩
    | true =>
     rw [Bool.not_true, if_neg Bool.false_ne_true,
      ExtendibleHTableDirectoryPage.getLocalDepth_ok bound]
     dsimp only
     by_cases deep : (self.directoryOf key).localDepths (self.slotOf key) =
      (self.directoryOf key).globalDepth
     · rw [if_pos deep]
       by_cases maximal :
        (self.directoryOf key).globalDepth ≥ (self.directoryOf key).maxDepth
       · rw [if_pos maximal]
         exact ⟨self, some false, rfl, Kept.refl sound⟩
       · obtain ⟨new, done, kept, newDeep, depth⟩ :=
          grow_kept sound missing deep (Nat.lt_of_not_le maximal)
         rw [if_neg maximal, done]
         exact ⟨new, none, rfl, kept, newDeep, fun _ => depth⟩
     · have shallow := ((sound.directoryOf_sound missing).2.consistent.bound _ bound)
       obtain ⟨local_eq, lower⟩ := splittable missing found full
        (Nat.lt_of_le_of_ne shallow deep)
       obtain ⟨new, done, kept, newDeep⟩ := shallow_kept sound missing local_eq lower
       rw [if_neg deep, done]
       exact ⟨new, none, rfl, kept, newDeep, fun wasDeep => absurd wasDeep.2 deep⟩

end

theorem insertFrom_deep (fuel : ℕ) (sound : self.Sound) (positive : 1 ≤ self.bucketMaxSize)
 (deep : self.Deep key)
 (enough : self.directoryMaxDepth < (self.directoryOf key).globalDepth + fuel) (value : V) :
 ∃ new done, insertFrom fuel self key value = .ok (new, done) ∧
  Outcome self new key value (some done) := by
 induction fuel generalizing self with
 | zero =>
  obtain ⟨maxDepth, own⟩ := sound.directoryOf_sound deep.1
  have le := own.depth_le
  omega
 | succ fuel ih =>
  obtain ⟨new, answer, called, outcome⟩ := insertOnce_ok sound positive deep.splittable value
  unfold insertFrom
  rw [called]
  simp only [bind, Except.bind]
  cases answer with
  | some done => exact ⟨new, done, rfl, outcome⟩
  | none =>
   obtain ⟨kept, newDeep, grows⟩ := outcome
   have depth := grows deep
   obtain ⟨last, done, again, result⟩ := ih kept.sound
    (by rw [kept.shape.bucketMaxSize]; exact positive) newDeep
    (by rw [kept.shape.directoryMaxDepth, depth]; omega)
   refine ⟨last, done, again, ?_⟩
   cases done with
   | true => exact kept.inserted result
   | false => exact kept.trans result

theorem insert_ok (sound : self.Sound) (positive : 1 ≤ self.bucketMaxSize)
 (splittable : self.Splittable key) (value : V) :
 ∃ new done, self.insert key value = .ok (new, done) ∧
  Outcome self new key value (some done) := by
 obtain ⟨new, answer, called, outcome⟩ := insertOnce_ok sound positive splittable value
 unfold insert insertFrom
 rw [called]
 simp only [bind, Except.bind]
 cases answer with
 | some done => exact ⟨new, done, rfl, outcome⟩
 | none =>
  obtain ⟨kept, newDeep, -⟩ := outcome
  obtain ⟨last, done, again, result⟩ := insertFrom_deep (self.directoryMaxDepth + 1) kept.sound
   (by rw [kept.shape.bucketMaxSize]; exact positive) newDeep
   (by rw [kept.shape.directoryMaxDepth]; omega) value
  refine ⟨last, done, again, ?_⟩
  cases done with
  | true => exact kept.inserted result
  | false => exact kept.trans result

end MyNotes.Cmu15445.DiskExtendibleHashTable
