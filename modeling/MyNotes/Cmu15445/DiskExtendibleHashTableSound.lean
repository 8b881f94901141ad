/-
The invariant of the extendible hash table, and what a split keeps.

Each directory is consistent, and every entry of a bucket is routed to that bucket.
A split that is a split of the directory loses no entry and hides none.
-/

import MyNotes.Cmu15445.DiskExtendibleHashTable

namespace MyNotes.Cmu15445.DiskExtendibleHashTable

open Library.ExtendibleDirectory Library.LowBits Function List ExtendibleHTableDirectoryPage
open ExtendibleHTableHeaderPage
open ExtendibleHTableBucketPage

variable {K V : Type}

def owner (self : DiskExtendibleHashTable K V) (key : K) : ℕ :=
 self.headerPage.hashToDirectoryIndex (self.hash key)

/-- A directory whose entries all belong to one header index. -/
structure DirectorySound (hash : K → UInt32) (bucketMaxSize : ℕ) (owned : K → Prop)
 (directory : ExtendibleHTableDirectoryPage)
 (buckets : PageId → ExtendibleHTableBucketPage K V) : Prop where
 consistent : Consistent directory.view
 depth_le : directory.globalDepth ≤ directory.maxDepth
 placed : ∀ pageId, directory.view.Holds pageId → ∀ entry ∈ (buckets pageId).array,
  owned entry.1 ∧ directory.view.route (hash entry.1).toNat = pageId
 distinct : ∀ pageId, directory.view.Holds pageId → (buckets pageId).Distinct
 maxSize : ∀ pageId, directory.view.Holds pageId → (buckets pageId).maxSize = bucketMaxSize
 fits : ∀ pageId, directory.view.Holds pageId → (buckets pageId).array.length ≤ bucketMaxSize

variable {hash : K → UInt32} {bucketMaxSize : ℕ} {owned : K → Prop}
 {directory after : ExtendibleHTableDirectoryPage}
 {buckets newBuckets : PageId → ExtendibleHTableBucketPage K V}

/-! ### Changes that move no entry -/

theorem DirectorySound.grow
 (sound : DirectorySound hash bucketMaxSize owned directory buckets)
 (room : directory.globalDepth < directory.maxDepth) :
 DirectorySound hash bucketMaxSize owned directory.incrGlobalDepth buckets := by
 have grown := directory.incrGlobalDepth_grown
 refine ⟨grown.consistent sound.consistent, ?_, ?_, fun pageId holds =>
  sound.distinct pageId (grown.holds holds), fun pageId holds =>
  sound.maxSize pageId (grown.holds holds), fun pageId holds =>
  sound.fits pageId (grown.holds holds)⟩
 · rw [directory.incrGlobalDepth_maxDepth]
   exact room
 · intro pageId holds entry member
   rw [grown.route]
   exact sound.placed pageId (grown.holds holds) entry member

/-! ### The directory of a split -/

/-- The directory with two slots one level deeper, and a page for the second. -/
def splitSlots (directory : ExtendibleHTableDirectoryPage) (bucketIndex image : ℕ)
 (fresh : PageId) : ExtendibleHTableDirectoryPage :=
 { directory with
  localDepths := fun slot => if slot = bucketIndex ∨ slot = image then
   directory.localDepths bucketIndex + 1 else directory.localDepths slot
  bucketPageIds := fun slot => if slot = image then fresh else directory.bucketPageIds slot }

variable {bucketIndex : ℕ}

theorem splitDirectory_eq {image : ℕ} (fresh : PageId)
 (split : directory.getSplitImageIndex bucketIndex = image)
 (bound : bucketIndex < 2 ^ directory.globalDepth)
 (imageBound : image < 2 ^ directory.globalDepth) :
 splitDirectory directory bucketIndex fresh =
  .ok (splitSlots directory bucketIndex image fresh) := by
 unfold splitDirectory
 rw [split, getLocalDepth_ok bound]
 simp only [bind, Except.bind]
 rw [setLocalDepth_ok imageBound]
 dsimp only
 rw [setLocalDepth_ok]
 · dsimp only
   rw [setBucketPageId_ok]
   · refine congrArg Except.ok ?_
     congr 1
     · funext slot
       dsimp only
       by_cases own : slot = bucketIndex
       · rw [own, update_self, if_pos (.inl rfl)]
       · rw [update_of_ne own, update_apply]
         by_cases same : slot = image
         · rw [if_pos same, if_pos (.inr same)]
         · simp_all
     · funext slot
       exact update_apply _ _ _ _
   · exact imageBound
 · exact bound

theorem splitDirectory_ok (fresh : PageId)
 (local_eq : directory.localDepths bucketIndex + 1 = directory.globalDepth)
 (lower : bucketIndex < 2 ^ (directory.globalDepth - 1))
 (unused : ∀ slot < 2 ^ directory.globalDepth, directory.bucketPageIds slot ≠ fresh) :
 ∃ after, splitDirectory directory bucketIndex fresh = .ok after ∧
  Split directory.view after.view bucketIndex fresh ∧
  after.maxDepth = directory.maxDepth ∧ after.globalDepth = directory.globalDepth := by
 have less : directory.globalDepth - 1 = directory.localDepths bucketIndex := by omega
 rw [less] at lower
 have double : 2 ^ directory.globalDepth = 2 * 2 ^ directory.localDepths bucketIndex := by
  rw [← local_eq, pow_succ, Nat.mul_comm]
 have image : directory.getSplitImageIndex bucketIndex =
  bucketIndex + 2 ^ directory.localDepths bucketIndex := by
  unfold getSplitImageIndex
  rw [Nat.one_shiftLeft, less]
 generalize other : bucketIndex + 2 ^ directory.localDepths bucketIndex = imageIndex at image
 have bound : bucketIndex < 2 ^ directory.globalDepth := by omega
 have imageBound : imageIndex < 2 ^ directory.globalDepth := by omega
 have distinct : bucketIndex ≠ imageIndex := by omega
 refine ⟨_, splitDirectory_eq fresh image bound imageBound, ?_, rfl, rfl⟩
 refine ⟨rfl, bound, Nat.lt_of_succ_le local_eq.le, unused, ?_, ?_⟩
 · intro slot slotBound agree
   simp only [view, splitSlots] at slotBound agree ⊢
   rw [← local_eq] at slotBound
   rcases eq_or_eq_add slotBound lower agree with same | same
   · simp_all
   · rw [same, other, if_pos (.inr rfl), if_pos rfl, local_eq, Nat.mod_eq_of_lt imageBound,
      Nat.mod_eq_of_lt bound]
     grind
 · intro slot _ differ
   simp only [view, splitSlots] at differ ⊢
   have notBucket : slot ≠ bucketIndex := by
    intro same
    exact differ (by rw [same])
   have notImage : slot ≠ imageIndex := by
    intro same
    exact differ (by rw [same, ← other, Nat.add_mod_right])
   simp_all

/-! ### Redistribution -/

variable [DecidableEq K]

theorem getBucketPageId_route (directory : ExtendibleHTableDirectoryPage) (code : UInt32) :
 directory.getBucketPageId (directory.hashToBucketIndex code) =
  .ok (directory.view.route code.toNat) := by
 rw [getBucketPageId_ok (directory.hashToBucketIndex_lt code),
  hashToBucketIndex_eq]
 rfl

theorem redistribute_fold (hash : K → UInt32) (directory : ExtendibleHTableDirectoryPage)
 (bucketPageId : PageId) (entries : List (K × V))
 (pages : ExtendibleHTableBucketPage K V × ExtendibleHTableBucketPage K V)
 (distinct : (entries.map Prod.fst).Nodup)
 (absent : ∀ entry ∈ entries,
  pages.1.lookup entry.1 = none ∧ pages.2.lookup entry.1 = none)
 (firstFits : pages.1.array.length + entries.length ≤ pages.1.maxSize)
 (secondFits : pages.2.array.length + entries.length ≤ pages.2.maxSize) :
 entries.foldlM (redistribute hash directory bucketPageId) pages =
  .ok ({ pages.1 with
   array := pages.1.array ++ entries.filter fun entry =>
    directory.view.route (hash entry.1).toNat = bucketPageId },
   { pages.2 with
    array := pages.2.array ++ entries.filter fun entry =>
     directory.view.route (hash entry.1).toNat ≠ bucketPageId }) := by
 induction entries generalizing pages with
 | nil => simp [pure, Except.pure]
 | cons entry rest ih =>
  obtain ⟨fresh, distinct⟩ := nodup_cons.mp distinct
  have others : ∀ later ∈ rest, later.1 ≠ entry.1 :=
   fun later member same => fresh (mem_map.mpr ⟨later, member, same⟩)
  obtain ⟨absentFirst, absentSecond⟩ := absent entry mem_cons_self
  rw [length_cons] at firstFits secondFits
  have roomFirst : pages.1.isFull = false := by
   exact beq_false_of_ne (by omega)
  have roomSecond : pages.2.isFull = false := by
   exact beq_false_of_ne (by omega)
  rw [foldlM_cons]
  unfold redistribute
  rw [getBucketPageId_route]
  simp only [bind, Except.bind]
  by_cases stays : directory.view.route (hash entry.1).toNat = bucketPageId
  · rw [if_pos stays, insert_new absentFirst roomFirst]
    refine (ih _ distinct ?_ ?_ ?_).trans ?_
    · intro later member
      obtain ⟨first, second⟩ := absent later (mem_cons_of_mem _ member)
      exact ⟨(pages.1.lookup_append_other (others later member) entry.2).trans first, second⟩
    · grind
    · dsimp only
      omega
    · simp [stays]
  · rw [if_neg stays, insert_new absentSecond roomSecond]
    refine (ih _ distinct ?_ ?_ ?_).trans ?_
    · intro later member
      obtain ⟨first, second⟩ := absent later (mem_cons_of_mem _ member)
      exact ⟨first, (pages.2.lookup_append_other (others later member) entry.2).trans second⟩
    · dsimp only
      omega
    · grind
    · simp [stays]

/-! ### What a split keeps -/

/-- The buckets after a split: the entries of the old page, each where it is routed. -/
structure Redistributed (hash : K → UInt32) (bucketMaxSize : ℕ)
 (after : ExtendibleHTableDirectoryPage)
 (buckets newBuckets : PageId → ExtendibleHTableBucketPage K V)
 (bucketPageId fresh : PageId) : Prop where
 stay : newBuckets bucketPageId = ⟨bucketMaxSize, (buckets bucketPageId).array.filter
  fun entry => after.view.route (hash entry.1).toNat = bucketPageId⟩
 move : newBuckets fresh = ⟨bucketMaxSize, (buckets bucketPageId).array.filter
  fun entry => after.view.route (hash entry.1).toNat ≠ bucketPageId⟩
 others : ∀ pageId, pageId ≠ bucketPageId → pageId ≠ fresh → newBuckets pageId = buckets pageId

omit [DecidableEq K] in
theorem distinct_filter {bucket : ExtendibleHTableBucketPage K V} (distinct : bucket.Distinct)
 (maxSize : ℕ) (test : K × V → Bool) :
 ExtendibleHTableBucketPage.Distinct ⟨maxSize, bucket.array.filter test⟩ :=
 List.Nodup.sublist ((filter_sublist).map Prod.fst) distinct

omit [DecidableEq K] in
theorem DirectorySound.split (sound : DirectorySound hash bucketMaxSize owned directory buckets)
 {fresh : PageId} (split : Split directory.view after.view bucketIndex fresh)
 (maxDepth : after.maxDepth = directory.maxDepth)
 (globalDepth : after.globalDepth = directory.globalDepth)
 (redistributed : Redistributed hash bucketMaxSize after buckets newBuckets
  (directory.bucketPageIds bucketIndex) fresh) :
 DirectorySound hash bucketMaxSize owned after newBuckets := by
 have holds : directory.view.Holds (directory.bucketPageIds bucketIndex) :=
  ⟨bucketIndex, split.bound, rfl⟩
 -- A page of the new directory is the old page, the fresh one, or one left alone.
 have pages : ∀ pageId, after.view.Holds pageId →
  pageId = directory.bucketPageIds bucketIndex ∨ pageId = fresh ∨
   (pageId ≠ directory.bucketPageIds bucketIndex ∧ directory.view.Holds pageId ∧
    newBuckets pageId = buckets pageId) := by
  intro pageId held
  by_cases own : pageId = directory.bucketPageIds bucketIndex
  · exact .inl own
  · by_cases isFresh : pageId = fresh
    · exact .inr (.inl isFresh)
    · exact .inr (.inr ⟨own, (split.holds held).resolve_left isFresh,
       redistributed.others pageId own isFresh⟩)
 refine ⟨split.consistent sound.consistent, ?_, ?_, ?_, ?_, ?_⟩
 · rw [maxDepth, globalDepth]
   exact sound.depth_le
 · intro pageId held entry member
   rcases pages pageId held with own | isFresh | ⟨different, wasHeld, same⟩
   · rw [own, redistributed.stay] at member
     obtain ⟨present, stays⟩ := mem_filter.mp member
     refine ⟨(sound.placed _ holds entry present).1, ?_⟩
     rw [own]
     exact of_decide_eq_true stays
   · rw [isFresh, redistributed.move] at member
     obtain ⟨present, moves⟩ := mem_filter.mp member
     obtain ⟨owns, routed⟩ := sound.placed _ holds entry present
     refine ⟨owns, ?_⟩
     rcases split.route sound.consistent (hash entry.1).toNat with ⟨-, goes⟩ | ⟨elsewhere, -⟩
     · rw [isFresh]
       exact goes.resolve_left (of_decide_eq_true moves)
     · exact absurd routed elsewhere
   · rw [same] at member
     obtain ⟨owns, routed⟩ := sound.placed pageId wasHeld entry member
     refine ⟨owns, ?_⟩
     rcases split.route sound.consistent (hash entry.1).toNat with ⟨here, -⟩ | ⟨-, kept⟩
     · exact absurd (routed.symm.trans here) different
     · exact kept.trans routed
 · intro pageId held
   rcases pages pageId held with own | isFresh | ⟨-, wasHeld, same⟩
   · rw [own, redistributed.stay]
     exact distinct_filter (sound.distinct _ holds) _ _
   · rw [isFresh, redistributed.move]
     exact distinct_filter (sound.distinct _ holds) _ _
   · rw [same]
     exact sound.distinct pageId wasHeld
 · intro pageId held
   rcases pages pageId held with own | isFresh | ⟨-, wasHeld, same⟩
   · rw [own, redistributed.stay]
   · rw [isFresh, redistributed.move]
   · rw [same]
     exact sound.maxSize pageId wasHeld
 · intro pageId held
   rcases pages pageId held with own | isFresh | ⟨-, wasHeld, same⟩
   · rw [own, redistributed.stay]
     exact (length_filter_le _ _).trans (sound.fits _ holds)
   · rw [isFresh, redistributed.move]
     exact (length_filter_le _ _).trans (sound.fits _ holds)
   · rw [same]
     exact sound.fits pageId wasHeld

/-- What a directory and its buckets say of a key. -/
def locate (hash : K → UInt32) (directory : ExtendibleHTableDirectoryPage)
 (buckets : PageId → ExtendibleHTableBucketPage K V) (key : K) : Option V :=
 (buckets (directory.view.route (hash key).toNat)).lookup key

theorem DirectorySound.locate_split
 (sound : DirectorySound hash bucketMaxSize owned directory buckets) {fresh : PageId}
 (split : Split directory.view after.view bucketIndex fresh)
 (redistributed : Redistributed hash bucketMaxSize after buckets newBuckets
  (directory.bucketPageIds bucketIndex) fresh) (key : K) :
 locate hash after newBuckets key = locate hash directory buckets key := by
 have holds : directory.view.Holds (directory.bucketPageIds bucketIndex) :=
  ⟨bucketIndex, split.bound, rfl⟩
 have distinct := sound.distinct _ holds
 unfold locate
 rcases split.route sound.consistent (hash key).toNat with ⟨here, stays | moves⟩ | ⟨away, kept⟩
 · have own : after.view.route (hash key).toNat = directory.bucketPageIds bucketIndex := stays
   rw [own, here, redistributed.stay]
   apply lookup_congr (distinct_filter distinct _ _) distinct
   simp_all
 · have other : after.view.route (hash key).toNat ≠ directory.bucketPageIds bucketIndex := by
    rw [moves]
    exact (split.unused bucketIndex split.bound).symm
   rw [moves, here, redistributed.move]
   apply lookup_congr (distinct_filter distinct _ _) distinct
   simp_all
 · rw [kept, redistributed.others _ away]
   intro isFresh
   obtain ⟨slot, bound, same⟩ := holds_route directory.view (hash key).toNat
   exact split.unused slot bound (same.trans isFresh)

theorem locate_grow (hash : K → UInt32) (directory : ExtendibleHTableDirectoryPage)
 (buckets : PageId → ExtendibleHTableBucketPage K V) (key : K) :
 locate hash directory.incrGlobalDepth buckets key = locate hash directory buckets key := by
 unfold locate
 rw [directory.incrGlobalDepth_grown.route]

/-! ### The whole table -/

def directoryId (self : DiskExtendibleHashTable K V) (index : ℕ) : PageId :=
 self.headerPage.directoryPageIds index

/-- A page is a bucket of the directory of a header index. -/
def Holds (self : DiskExtendibleHashTable K V) (index : ℕ) (pageId : PageId) : Prop :=
 self.directoryId index ≠ invalidPageId ∧
  (self.directories (self.directoryId index)).view.Holds pageId

section

variable (self : DiskExtendibleHashTable K V)

def directoryOf (key : K) : ExtendibleHTableDirectoryPage :=
 self.directories (self.directoryId (self.owner key))

def slotOf (key : K) : ℕ :=
 (self.directoryOf key).hashToBucketIndex (self.hash key)

def bucketIdOf (key : K) : PageId :=
 (self.directoryOf key).bucketPageIds (self.slotOf key)

def bucketOf (key : K) : ExtendibleHTableBucketPage K V :=
 self.buckets (self.bucketIdOf key)

/-- What `GetValue` finds. -/
def find (key : K) : Option V :=
 if self.directoryId (self.owner key) = invalidPageId then none
 else (self.bucketOf key).lookup key

end

/-- Directories and buckets have pages of their own, and every directory is sound. -/
structure Sound (state : DiskExtendibleHashTable K V) : Prop where
 next : 0 ≤ state.nextPageId
 directory_lt : ∀ index, state.directoryId index ≠ invalidPageId →
  state.directoryId index < state.nextPageId
 directory_apart : ∀ index other, state.directoryId index ≠ invalidPageId →
  state.directoryId index = state.directoryId other → index = other
 bucket_range : ∀ index pageId, state.Holds index pageId →
  0 ≤ pageId ∧ pageId < state.nextPageId
 bucket_apart : ∀ index other pageId, state.Holds index pageId → state.Holds other pageId →
  index = other
 directory : ∀ index, state.directoryId index ≠ invalidPageId →
  (state.directories (state.directoryId index)).maxDepth = state.directoryMaxDepth ∧
   DirectorySound state.hash state.bucketMaxSize (fun key => state.owner key = index)
    (state.directories (state.directoryId index)) state.buckets

variable {self new : DiskExtendibleHashTable K V}

variable {key : K}

omit [DecidableEq K] in
theorem Sound.directoryOf_sound (sound : self.Sound)
 (present : self.directoryId (self.owner key) ≠ invalidPageId) :
 (self.directoryOf key).maxDepth = self.directoryMaxDepth ∧
  DirectorySound self.hash self.bucketMaxSize
   (fun other => self.owner other = self.owner key) (self.directoryOf key) self.buckets :=
 sound.directory _ present

omit [DecidableEq K] in
theorem new_sound (hash : K → UInt32) (headerMaxDepth directoryMaxDepth bucketMaxSize : ℕ) :
 Sound (.new hash headerMaxDepth directoryMaxDepth bucketMaxSize :
  DiskExtendibleHashTable K V) where
 next := Int.le_refl 0
 directory_lt := fun _ valid => absurd rfl valid
 directory_apart := fun _ _ valid => absurd rfl valid
 bucket_range := fun _ _ held => absurd rfl held.1
 bucket_apart := fun _ _ _ held => absurd rfl held.1
 directory := fun _ valid => absurd rfl valid

section

variable (self : DiskExtendibleHashTable K V)

omit [DecidableEq K] in
theorem slotOf_eq (key : K) :
 self.slotOf key = (self.hash key).toNat % 2 ^ (self.directoryOf key).globalDepth :=
 hashToBucketIndex_eq _ _

omit [DecidableEq K] in
theorem bucketIdOf_eq (key : K) :
 self.bucketIdOf key = (self.directoryOf key).view.route (self.hash key).toNat := by
 unfold bucketIdOf
 rw [slotOf_eq]
 rfl

theorem lookup_bucketOf (key : K) :
 (self.bucketOf key).lookup key =
  locate self.hash (self.directoryOf key) self.buckets key := by
 unfold bucketOf
 rw [bucketIdOf_eq]
 rfl

omit [DecidableEq K] in
theorem getDirectoryPageId_owner (key : K) :
 self.headerPage.getDirectoryPageId
  (self.headerPage.hashToDirectoryIndex (self.hash key)) =
  self.directoryId (self.owner key) := by
 have bound := self.headerPage.hashToDirectoryIndex_lt (self.hash key)
 unfold getDirectoryPageId
 rw [if_neg (Nat.not_le.mpr bound)]
 rfl

omit [DecidableEq K] in
theorem getBucketPageId_slotOf (key : K) :
 (self.directoryOf key).getBucketPageId (self.slotOf key) = .ok (self.bucketIdOf key) := by
 rw [bucketIdOf_eq]
 exact getBucketPageId_route _ _

end

omit [DecidableEq K] in
theorem Sound.bucketIdOf_held (sound : self.Sound)
 (present : self.directoryId (self.owner key) ≠ invalidPageId) :
 self.Holds (self.owner key) (self.bucketIdOf key) ∧ self.bucketIdOf key ≠ invalidPageId := by
 have held : self.Holds (self.owner key) (self.bucketIdOf key) := by
  rw [bucketIdOf_eq]
  exact ⟨present, holds_route _ _⟩
 refine ⟨held, ?_⟩
 intro invalid
 have range := (sound.bucket_range _ _ held).1
 rw [invalid] at range
 exact absurd range (by decide)

theorem getValue_ok (sound : self.Sound) (key : K) : self.getValue key = .ok (self.find key) := by
 unfold getValue find
 dsimp only
 rw [getDirectoryPageId_owner]
 by_cases absent : self.directoryId (self.owner key) = invalidPageId
 · rw [if_pos absent, if_pos absent]
   rfl
 · have read := self.getBucketPageId_slotOf key
   unfold slotOf directoryOf at read
   rw [if_neg absent, if_neg absent, read]
   simp only [bind, Except.bind]
   rw [if_neg (sound.bucketIdOf_held absent).2]
   rfl

/-- A step that rebuilds the directory of one header index. -/
structure Rebuilt (old new : DiskExtendibleHashTable K V) (index : ℕ) (pageId : PageId)
 (directory : ExtendibleHTableDirectoryPage) : Prop where
 hash : new.hash = old.hash
 directoryMaxDepth : new.directoryMaxDepth = old.directoryMaxDepth
 bucketMaxSize : new.bucketMaxSize = old.bucketMaxSize
 headerMaxDepth : new.headerPage.maxDepth = old.headerPage.maxDepth
 valid : pageId ≠ invalidPageId
 source : old.directoryId index = pageId ∨
  (old.directoryId index = invalidPageId ∧ old.nextPageId ≤ pageId)
 directoryId : ∀ other, new.directoryId other =
  if other = index then pageId else old.directoryId other
 directories : ∀ other, new.directories other =
  if other = pageId then directory else old.directories other
 buckets : ∀ bucketPageId < old.nextPageId, ¬ old.Holds index bucketPageId →
  new.buckets bucketPageId = old.buckets bucketPageId
 next : old.nextPageId ≤ new.nextPageId
 page_lt : pageId < new.nextPageId

namespace Rebuilt

variable {index : ℕ} {pageId : PageId} {directory : ExtendibleHTableDirectoryPage}

omit [DecidableEq K] in
theorem owner_eq (rebuilt : Rebuilt self new index pageId directory) (key : K) :
 new.owner key = self.owner key := by
 unfold owner hashToDirectoryIndex
 rw [rebuilt.hash, rebuilt.headerMaxDepth]

variable {other : ℕ}

variable (rebuilt : Rebuilt self new index pageId directory)
include rebuilt

section

omit [DecidableEq K]

theorem other_directory (sound : self.Sound) (different : other ≠ index)
 (valid : self.directoryId other ≠ invalidPageId) :
 new.directories (new.directoryId other) = self.directories (self.directoryId other) := by
 rw [rebuilt.directoryId, if_neg different, rebuilt.directories, if_neg]
 intro same
 cases rebuilt.source with
 | inl present =>
  rw [← present] at same
  exact different (sound.directory_apart other index valid same)
 | inr absent =>
  have below := sound.directory_lt other valid
  grind

theorem other_buckets (sound : self.Sound) (different : other ≠ index) {bucketPageId : PageId}
 (held : self.Holds other bucketPageId) : new.buckets bucketPageId = self.buckets bucketPageId :=
 rebuilt.buckets bucketPageId (sound.bucket_range other bucketPageId held).2
  fun own => different (sound.bucket_apart other index bucketPageId held own)

theorem holds_other (sound : self.Sound) (different : other ≠ index) {bucketPageId : PageId}
 (held : new.Holds other bucketPageId) : self.Holds other bucketPageId := by
 obtain ⟨valid, slot⟩ := held
 have stays := rebuilt.directoryId other
 rw [if_neg different] at stays
 rw [stays] at valid
 rw [rebuilt.other_directory sound different valid] at slot
 exact ⟨valid, slot⟩

theorem own_directory :
 new.directoryId index = pageId ∧ new.directories (new.directoryId index) = directory := by
 have own := rebuilt.directoryId index
 rw [if_pos rfl] at own
 rw [own, rebuilt.directories, if_pos rfl]
 exact ⟨rfl, rfl⟩

theorem sound (sound : self.Sound) (range : ∀ bucketPageId, directory.view.Holds bucketPageId →
  0 ≤ bucketPageId ∧ bucketPageId < new.nextPageId ∧
   (self.Holds index bucketPageId ∨ self.nextPageId ≤ bucketPageId))
 (maxDepth : directory.maxDepth = self.directoryMaxDepth)
 (own : DirectorySound self.hash self.bucketMaxSize (fun key => self.owner key = index)
  directory new.buckets) : new.Sound := by
 obtain ⟨ownId, ownDirectory⟩ := rebuilt.own_directory
 have mine : ∀ bucketPageId, new.Holds index bucketPageId →
  directory.view.Holds bucketPageId := by
  intro bucketPageId held
  rw [← ownDirectory]
  exact held.2
 -- A bucket of this directory is no other directory's: it was its own, or it is new.
 have apart : ∀ other bucketPageId, other ≠ index → new.Holds other bucketPageId →
  ¬ new.Holds index bucketPageId := by
  intro other bucketPageId different held ownHeld
  have before := rebuilt.holds_other sound different held
  cases (range bucketPageId (mine bucketPageId ownHeld)).2.2 with
  | inl was => exact different (sound.bucket_apart other index bucketPageId before was)
  | inr fresh =>
   exact absurd (sound.bucket_range other bucketPageId before).2 (not_lt.mpr fresh)
 refine ⟨sound.next.trans rebuilt.next, ?_, ?_, ?_, ?_, ?_⟩
 · intro other valid
   rw [rebuilt.directoryId] at valid ⊢
   by_cases same : other = index
   · rw [if_pos same]
     exact rebuilt.page_lt
   · rw [if_neg same] at valid ⊢
     exact (sound.directory_lt other valid).trans_le rebuilt.next
 · intro first second valid equal
   have fresh : ∀ other, other ≠ index → self.directoryId other ≠ invalidPageId →
    self.directoryId other ≠ pageId := by
    intro other different present same
    cases rebuilt.source with
    | inl was => exact different (sound.directory_apart other index present (same.trans was.symm))
    | inr absent =>
     have below := sound.directory_lt other present
     grind
   rw [rebuilt.directoryId] at valid
   rw [rebuilt.directoryId, rebuilt.directoryId] at equal
   by_cases one : first = index
   · by_cases two : second = index
     · exact one.trans two.symm
     · rw [if_pos one, if_neg two] at equal
       have present : self.directoryId second ≠ invalidPageId := by
        rw [← equal]
        exact rebuilt.valid
       grind
   · rw [if_neg one] at valid equal
     by_cases two : second = index
     · grind
     · rw [if_neg two] at equal
       exact sound.directory_apart first second valid equal
 · intro other bucketPageId held
   by_cases same : other = index
   · simp_all
   · obtain ⟨low, high⟩ := sound.bucket_range other bucketPageId
      (rebuilt.holds_other sound same held)
     exact ⟨low, high.trans_le rebuilt.next⟩
 · intro first second bucketPageId one two
   by_cases firstOwn : first = index
   · by_cases secondOwn : second = index
     · exact firstOwn.trans secondOwn.symm
     · grind
   · by_cases secondOwn : second = index
     · grind
     · exact sound.bucket_apart first second bucketPageId
        (rebuilt.holds_other sound firstOwn one) (rebuilt.holds_other sound secondOwn two)
 · intro other valid
   rw [rebuilt.hash, rebuilt.bucketMaxSize, rebuilt.directoryMaxDepth]
   have owners : (fun key => new.owner key = other) = fun key => self.owner key = other := by
    funext key
    rw [rebuilt.owner_eq]
   rw [owners]
   by_cases same : other = index
   · simp_all
   · have stays := rebuilt.directoryId other
     rw [if_neg same] at stays
     rw [stays] at valid
     rw [rebuilt.other_directory sound same valid]
     obtain ⟨depth, before⟩ := sound.directory other valid
     refine ⟨depth, before.consistent, before.depth_le, ?_, ?_, ?_, ?_⟩
     · intro bucketPageId held
       rw [rebuilt.other_buckets sound same ⟨valid, held⟩]
       exact before.placed bucketPageId held
     · intro bucketPageId held
       rw [rebuilt.other_buckets sound same ⟨valid, held⟩]
       exact before.distinct bucketPageId held
     · intro bucketPageId held
       rw [rebuilt.other_buckets sound same ⟨valid, held⟩]
       exact before.maxSize bucketPageId held
     · intro bucketPageId held
       rw [rebuilt.other_buckets sound same ⟨valid, held⟩]
       exact before.fits bucketPageId held

end

theorem find_other (sound : self.Sound) (different : self.owner key ≠ index) :
 new.find key = self.find key := by
 have stays := rebuilt.directoryId (self.owner key)
 rw [if_neg different] at stays
 unfold find
 rw [rebuilt.owner_eq, stays]
 by_cases absent : self.directoryId (self.owner key) = invalidPageId
 · rw [if_pos absent, if_pos absent]
 · have same : new.directoryOf key = self.directoryOf key := by
    unfold directoryOf
    rw [rebuilt.owner_eq]
    exact rebuilt.other_directory sound different absent
   rw [if_neg absent, if_neg absent, lookup_bucketOf, lookup_bucketOf, same, rebuilt.hash]
   have held := (sound.bucketIdOf_held absent).1
   rw [bucketIdOf_eq] at held
   unfold locate
   rw [rebuilt.other_buckets sound different held]

omit [DecidableEq K] in
theorem directoryOf_own (own : self.owner key = index) : new.directoryOf key = directory := by
 unfold directoryOf
 rw [rebuilt.owner_eq, own]
 exact rebuilt.own_directory.2

theorem find_own (own : self.owner key = index) :
 new.find key = locate self.hash directory new.buckets key := by
 unfold find
 rw [rebuilt.owner_eq, own, if_neg (by rw [rebuilt.own_directory.1]; exact rebuilt.valid),
  lookup_bucketOf, rebuilt.directoryOf_own own, rebuilt.hash]

end Rebuilt

theorem find_of_owner {other : K} (own : self.owner other = self.owner key)
 (present : self.directoryId (self.owner key) ≠ invalidPageId) :
 self.find other = locate self.hash (self.directoryOf key) self.buckets other := by
 unfold find
 rw [own, if_neg present, lookup_bucketOf]
 unfold directoryOf
 rw [own]

/-! ### One bucket changes -/

variable {pageId : PageId}

section

omit [DecidableEq K]

theorem DirectorySound.setBucket (sound : DirectorySound hash bucketMaxSize owned directory buckets)
 (bucket : ExtendibleHTableBucketPage K V) (placed : ∀ entry ∈ bucket.array,
  owned entry.1 ∧ directory.view.route (hash entry.1).toNat = pageId) (distinct : bucket.Distinct)
 (maxSize : bucket.maxSize = bucketMaxSize) (fits : bucket.array.length ≤ bucketMaxSize) :
 DirectorySound hash bucketMaxSize owned directory (update buckets pageId bucket) := by
 refine ⟨sound.consistent, sound.depth_le, ?_, ?_, ?_, ?_⟩
 · intro other holds
   by_cases same : other = pageId
   · rw [same, update_self]
     exact placed
   · rw [update_of_ne same]
     exact sound.placed other holds
 · intro other holds
   by_cases same : other = pageId
   · rw [same, update_self]
     exact distinct
   · rw [update_of_ne same]
     exact sound.distinct other holds
 · intro other holds
   by_cases same : other = pageId
   · rw [same, update_self]
     exact maxSize
   · rw [update_of_ne same]
     exact sound.maxSize other holds
 · intro other holds
   by_cases same : other = pageId
   · rw [same, update_self]
     exact fits
   · rw [update_of_ne same]
     exact sound.fits other holds

theorem setBucket_rebuilt (sound : self.Sound) {index : ℕ} (held : self.Holds index pageId)
 (bucket : ExtendibleHTableBucketPage K V) :
 Rebuilt self (self.setBucket pageId bucket) index (self.directoryId index)
  (self.directories (self.directoryId index)) := by
 refine ⟨rfl, rfl, rfl, rfl, held.1, .inl rfl, ?_, ?_, ?_, le_refl _,
  sound.directory_lt index held.1⟩
 · intro other
   change self.directoryId other = _
   by_cases same : other = index
   · rw [if_pos same, same]
   · rw [if_neg same]
 · intro other
   change self.directories other = _
   by_cases same : other = self.directoryId index
   · rw [if_pos same, same]
   · rw [if_neg same]
 · intro other _ notHeld
   apply update_of_ne
   intro same
   exact notHeld (same ▸ held)

theorem Rebuilt.range_of_held {index : ℕ} (sound : self.Sound)
 (rebuilt : Rebuilt self new index pageId directory)
 (pages : ∀ bucketPageId, directory.view.Holds bucketPageId → self.Holds index bucketPageId) :
 ∀ bucketPageId, directory.view.Holds bucketPageId →
  0 ≤ bucketPageId ∧ bucketPageId < new.nextPageId ∧
   (self.Holds index bucketPageId ∨ self.nextPageId ≤ bucketPageId) := by
 intro bucketPageId holds
 have held := pages bucketPageId holds
 obtain ⟨low, high⟩ := sound.bucket_range index bucketPageId held
 exact ⟨low, high.trans_le rebuilt.next, .inl held⟩

end

end MyNotes.Cmu15445.DiskExtendibleHashTable
