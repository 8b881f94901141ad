/-
`Remove` of the extendible hash table.

Each turn of the merge loop is a merge of the directory, and the page that it drops
is empty; the shrink loop takes away halves that no page needs.  Neither moves an
entry, so only the removed key is no longer found.
-/

import MyNotes.Cmu15445.DiskExtendibleHashTableInsert

namespace MyNotes.Cmu15445.DiskExtendibleHashTable

open Library.ExtendibleDirectory Library.LowBits Relation Function List
open ExtendibleHTableBucketPage ExtendibleHTableDirectoryPage
open Nat

variable {K V : Type} {hash : K → UInt32} {bucketMaxSize : ℕ} {owned : K → Prop}
 {directory after : ExtendibleHTableDirectoryPage}
 {buckets : PageId → ExtendibleHTableBucketPage K V}

/-- `UpdateDirectoryMapping` sets the page id and the local depth of its slot. -/
def Updates (update : DirectoryUpdate) : Prop :=
 ∀ directory bucketIdx bucketPageId localDepth,
  bucketIdx < 2 ^ directory.globalDepth →
   update directory bucketIdx bucketPageId localDepth 0 =
    { directory with
     localDepths := Function.update directory.localDepths bucketIdx localDepth
     bucketPageIds := Function.update directory.bucketPageIds bucketIdx bucketPageId }

/-! ### One turn of the merge loop -/

variable {update : DirectoryUpdate}

theorem remap_range (updates : Updates update) (directory : ExtendibleHTableDirectoryPage)
 {low rest : ℕ} (le : low ≤ directory.globalDepth) (small : rest < 2 ^ low) (pageId : PageId)
 (n : ℕ) (bound : n ≤ 2 ^ (directory.globalDepth - low)) :
 let mapped := (List.range n).foldl
  (fun directory i => update directory ((i <<< low) + rest) pageId low 0) directory
 mapped.maxDepth = directory.maxDepth ∧ mapped.globalDepth = directory.globalDepth ∧
  ∀ slot, ((∃ i < n, slot = i * 2 ^ low + rest) →
   mapped.localDepths slot = low ∧ mapped.bucketPageIds slot = pageId) ∧
   ((¬ ∃ i < n, slot = i * 2 ^ low + rest) →
    mapped.localDepths slot = directory.localDepths slot ∧
     mapped.bucketPageIds slot = directory.bucketPageIds slot) := by
 induction n with
 | zero =>
  simp
 | succ n ih =>
  obtain ⟨maxDepth, globalDepth, slots⟩ := ih (by omega)
  have inRange := ((exists_shift_add le small).mp ⟨n, by omega, rfl⟩).1
  rw [range_succ, foldl_append, foldl_cons, foldl_nil, shiftLeft_eq,
   updates _ _ _ _ (by rw [globalDepth]; exact inRange)]
  refine ⟨maxDepth, globalDepth, ?_⟩
  intro slot
  dsimp only
  by_cases last : slot = n * 2 ^ low + rest
  · rw [last, update_self, update_self]
    exact ⟨fun _ => ⟨rfl, rfl⟩, fun none => absurd ⟨n, by omega, rfl⟩ none⟩
  · rw [update_of_ne last, update_of_ne last]
    refine ⟨?_, ?_⟩
    · intro ⟨i, below, same⟩
      refine (slots slot).1 ⟨i, ?_, same⟩
      by_cases here : i = n
      · exact absurd (here ▸ same) last
      · omega
    · intro none
      refine (slots slot).2 ?_
      intro ⟨i, below, same⟩
      exact none ⟨i, by omega, same⟩

theorem remap_spec (updates : Updates update) (directory : ExtendibleHTableDirectoryPage)
 {low rest : ℕ} (le : low ≤ directory.globalDepth) (small : rest < 2 ^ low) (pageId : PageId) :
 let mapped := remap update directory directory.globalDepth low rest pageId
 mapped.maxDepth = directory.maxDepth ∧ mapped.globalDepth = directory.globalDepth ∧
  ∀ slot < 2 ^ directory.globalDepth,
   (slot % 2 ^ low = rest →
    mapped.localDepths slot = low ∧ mapped.bucketPageIds slot = pageId) ∧
   (slot % 2 ^ low ≠ rest →
    mapped.localDepths slot = directory.localDepths slot ∧
     mapped.bucketPageIds slot = directory.bucketPageIds slot) := by
 obtain ⟨maxDepth, globalDepth, slots⟩ :=
  remap_range updates directory le small pageId _ (le_refl _)
 unfold remap
 rw [one_shiftLeft]
 refine ⟨maxDepth, globalDepth, ?_⟩
 intro slot bound
 have inClass : (∃ i < 2 ^ (directory.globalDepth - low), slot = i * 2 ^ low + rest) ↔
  slot < 2 ^ directory.globalDepth ∧ slot % 2 ^ low = rest := exists_shift_add le small
 refine ⟨?_, ?_⟩
 · grind
 · grind

/-- Every entry of a bucket of the directory is in the bucket that its hash selects. -/
def Routed (hash : K → UInt32) (directory : ExtendibleHTableDirectoryPage)
 (buckets : PageId → ExtendibleHTableBucketPage K V) : Prop :=
 ∀ pageId, directory.view.Holds pageId → ∀ entry ∈ (buckets pageId).array,
  directory.view.route (hash entry.1).toNat = pageId

/-- A turn of a loop of `Remove`: a merge that drops an empty page, or a shrink. -/
inductive Turn (buckets : PageId → ExtendibleHTableBucketPage K V) :
 ExtendibleHTableDirectoryPage → ExtendibleHTableDirectoryPage → Prop
 | merge {directory after : ExtendibleHTableDirectoryPage} {index image low : ℕ}
  {kept : PageId} (merged : Merged directory.view after.view index image low kept)
  (maxDepth : after.maxDepth = directory.maxDepth)
  (dropped : ∀ pageId, pageId = directory.bucketPageIds index ∨
   pageId = directory.bucketPageIds image → pageId ≠ kept → (buckets pageId).array = []) :
  Turn buckets directory after
 | shrink {directory : ExtendibleHTableDirectoryPage} (shrinks : directory.canShrink = true) :
  Turn buckets directory directory.decrGlobalDepth

namespace Turn

variable (turn : Turn buckets directory after)
include turn

theorem maxDepth : after.maxDepth = directory.maxDepth := by
 cases turn with
 | merge _ maxDepth _ => exact maxDepth
 | shrink _ =>
  unfold decrGlobalDepth
  split <;> rfl

theorem globalDepth_le : after.globalDepth ≤ directory.globalDepth := by
 cases turn with
 | merge merged _ _ => exact merged.depth.le
 | shrink shrinks =>
  have depth := (directory.canShrink_shrunk shrinks).depth
  change directory.globalDepth = directory.decrGlobalDepth.globalDepth + 1 at depth
  omega

theorem consistent (consistent : Consistent directory.view) : Consistent after.view := by
 cases turn with
 | merge merged _ _ => exact merged.consistent consistent
 | shrink shrinks => exact (directory.canShrink_shrunk shrinks).consistent consistent

theorem holds {pageId : PageId} (held : after.view.Holds pageId) : directory.view.Holds pageId := by
 cases turn with
 | merge merged _ _ => exact merged.holds held
 | shrink shrinks => exact (directory.canShrink_shrunk shrinks).holds held

theorem routed (consistent : Consistent directory.view) (routed : Routed hash directory buckets) :
 Routed hash after buckets := by
 intro pageId held entry member
 have before := routed pageId (turn.holds held) entry member
 cases turn with
 | merge merged _ _ =>
  rcases merged.route consistent (hash entry.1).toNat with ⟨either, goes⟩ | ⟨_, _, stays⟩
  · rw [before] at either
    cases merged.holds_apart consistent held with
    | inl own => exact goes.trans own.symm
    | inr neither => exact absurd either (not_or.mpr neither)
  · exact stays.trans before
 | shrink shrinks =>
  rw [(directory.canShrink_shrunk shrinks).route consistent]
  exact before

theorem locate [DecidableEq K] (consistent : Consistent directory.view)
 (routed : Routed hash directory buckets) (key : K) :
 locate hash after buckets key = locate hash directory buckets key := by
 unfold DiskExtendibleHashTable.locate
 cases turn with
 | @merge _ index image low kept merged _ dropped =>
  rcases merged.route consistent (hash key).toNat with ⟨either, goes⟩ | ⟨_, _, stays⟩
  · rw [goes]
    by_cases same : directory.view.route (hash key).toNat = kept
    · rw [same]
    · have empty := dropped _ either same
      have before : (buckets (directory.view.route (hash key).toNat)).lookup key = none := by
       rw [ExtendibleHTableBucketPage.lookup_eq_none_iff, empty]
       exact fun _ => not_mem_nil
      rw [before, ExtendibleHTableBucketPage.lookup_eq_none_iff]
      intro value member
      have holds : directory.view.Holds kept := by
       cases merged.either with
       | inl first => exact ⟨index, merged.bound, first.symm⟩
       | inr second => exact ⟨image, merged.imageBound, second.symm⟩
      exact same (routed kept holds (key, value) member)
  · rw [stays]
 | shrink shrinks => rw [(directory.canShrink_shrunk shrinks).route consistent]

end Turn

theorem DirectorySound.routed
 (sound : DirectorySound hash bucketMaxSize owned directory buckets) :
 Routed hash directory buckets :=
 fun pageId holds entry member => (sound.placed pageId holds entry member).2

theorem DirectorySound.turn (sound : DirectorySound hash bucketMaxSize owned directory buckets)
 (turn : Turn buckets directory after) :
 DirectorySound hash bucketMaxSize owned after buckets where
 consistent := turn.consistent sound.consistent
 depth_le := by
  rw [turn.maxDepth]
  exact turn.globalDepth_le.trans sound.depth_le
 placed pageId holds entry member :=
  ⟨(sound.placed pageId (turn.holds holds) entry member).1,
   turn.routed sound.consistent sound.routed pageId holds entry member⟩
 distinct pageId holds := sound.distinct pageId (turn.holds holds)
 maxSize pageId holds := sound.maxSize pageId (turn.holds holds)
 fits pageId holds := sound.fits pageId (turn.holds holds)

/-! ### The loops -/

/-- What the turns of `Remove` keep. -/
structure Reshaped [DecidableEq K] (hash : K → UInt32) (bucketMaxSize : ℕ) (owned : K → Prop)
 (buckets : PageId → ExtendibleHTableBucketPage K V)
 (old new : ExtendibleHTableDirectoryPage) : Prop where
 sound : DirectorySound hash bucketMaxSize owned new buckets
 maxDepth : new.maxDepth = old.maxDepth
 holds : ∀ pageId, new.view.Holds pageId → old.view.Holds pageId
 locate : ∀ key, locate hash new buckets key = locate hash old buckets key

variable [DecidableEq K]

theorem Reshaped.of_turns (sound : DirectorySound hash bucketMaxSize owned directory buckets)
 (turns : ReflTransGen (Turn buckets) directory after) :
 Reshaped hash bucketMaxSize owned buckets directory after := by
 induction turns with
 | refl => exact ⟨sound, rfl, fun _ holds => holds, fun _ => rfl⟩
 | tail _ turn ih =>
  exact ⟨ih.sound.turn turn, turn.maxDepth.trans ih.maxDepth,
   fun pageId holds => ih.holds pageId (turn.holds holds),
   fun key => (turn.locate ih.sound.consistent ih.sound.routed key).trans (ih.locate key)⟩

section

omit [DecidableEq K]

theorem merged_turn (updates : Updates update) {bucketIndex low : ℕ} {kept : PageId}
 (bound : bucketIndex < 2 ^ directory.globalDepth) (consistent : Consistent directory.view)
 (local_eq : directory.localDepths bucketIndex = low + 1)
 (imageLocal_eq : directory.localDepths (bucketIndex ^^^ 2 ^ low) = low + 1)
 (either : kept = directory.bucketPageIds bucketIndex ∨
  kept = directory.bucketPageIds (bucketIndex ^^^ 2 ^ low)) :
 let lowered := { directory with
  localDepths := Function.update directory.localDepths bucketIndex low }
 let turned := remap update lowered directory.globalDepth low (bucketIndex % 2 ^ low) kept
 Merged directory.view turned.view bucketIndex (bucketIndex ^^^ 2 ^ low) low kept ∧
  turned.maxDepth = directory.maxDepth ∧ turned.globalDepth = directory.globalDepth ∧
  turned.localDepths bucketIndex = low ∧ turned.bucketPageIds bucketIndex = kept := by
 have deeper : low + 1 ≤ directory.globalDepth := by
  have le := consistent.bound bucketIndex bound
  rw [← local_eq]
  exact le
 obtain ⟨maxDepth, globalDepth, slots⟩ := remap_spec updates
  { directory with localDepths := Function.update directory.localDepths bucketIndex low }
  (Nat.le_of_succ_le deeper) (Nat.mod_lt bucketIndex (Nat.two_pow_pos low)) kept
 have own := (slots bucketIndex bound).1 rfl
 refine ⟨⟨globalDepth, bound, flip_lt bound deeper, local_eq, imageLocal_eq,
  flip_mod_low bucketIndex low, flip_mod_ne bucketIndex low, either, ?_, ?_⟩, maxDepth,
  globalDepth, own.1, own.2⟩
 · intro slot slotBound agree
   exact (slots slot slotBound).1 agree
 · intro slot slotBound differ
   obtain ⟨depth, page⟩ := (slots slot slotBound).2 differ
   refine ⟨depth.trans (update_of_ne ?_ _ _), page⟩
   intro same
   exact differ (by rw [same])

theorem array_eq_nil {bucket : ExtendibleHTableBucketPage K V} (empty : bucket.isEmpty = true) :
 bucket.array = [] :=
 length_eq_zero_iff.mp (eq_of_beq empty)

theorem dropped_empty {own image kept : PageId}
 (keptIs : (if (buckets own).isEmpty = true then image else own) = kept)
 (oneEmpty : ¬ (!(buckets own).isEmpty && !(buckets image).isEmpty) = true) :
 ∀ pageId, pageId = own ∨ pageId = image → pageId ≠ kept → (buckets pageId).array = [] := by
 intro pageId one notKept
 cases empty : (buckets own).isEmpty with
 | true =>
  rw [empty, if_pos rfl] at keptIs
  cases one with
  | inl same =>
   rw [same]
   exact array_eq_nil empty
  | inr same => exact absurd (same.trans keptIs) notKept
 | false =>
  rw [empty, if_neg Bool.false_ne_true] at keptIs
  cases one with
  | inl same => exact absurd (same.trans keptIs) notKept
  | inr same =>
   rw [empty, Bool.not_false, Bool.true_and, Bool.not_eq_true', Bool.not_eq_false]
    at oneEmpty
   rw [same]
   exact array_eq_nil oneEmpty

theorem mergeLoop_turns (updates : Updates update) (fuel : ℕ) {bucketIndex localDepth : ℕ}
 (consistent : Consistent directory.view) (bound : bucketIndex < 2 ^ directory.globalDepth)
 (local_eq : directory.localDepths bucketIndex = localDepth) (enough : localDepth ≤ fuel) :
 ∃ after, mergeLoop update buckets bucketIndex directory.globalDepth fuel directory
  (directory.bucketPageIds bucketIndex) localDepth = .ok after ∧
  ReflTransGen (Turn buckets) directory after := by
 induction localDepth generalizing directory fuel with
 | zero =>
  refine ⟨directory, ?_, .refl⟩
  unfold mergeLoop
  rfl
 | succ low ih =>
  cases fuel with
  | zero => omega
  | succ fuel =>
   have deeper : low < directory.globalDepth := by
    have le := consistent.bound bucketIndex bound
    change directory.localDepths bucketIndex ≤ directory.globalDepth at le
    omega
   have imageBound := flip_lt bound deeper
   unfold mergeLoop
   dsimp only
   rw [Nat.one_shiftLeft, getLocalDepth_ok imageBound,
    getBucketPageId_ok imageBound]
   simp only [bind, Except.bind]
   split
   · exact ⟨directory, rfl, .refl⟩
   · rename_i merges
     obtain ⟨imageLocal, oneEmpty⟩ := not_or.mp merges
     rw [not_not] at imageLocal
     generalize keptIs : (if (buckets (directory.bucketPageIds bucketIndex)).isEmpty = true
      then directory.bucketPageIds (bucketIndex ^^^ 2 ^ low)
      else directory.bucketPageIds bucketIndex) = kept
     have either : kept = directory.bucketPageIds bucketIndex ∨
      kept = directory.bucketPageIds (bucketIndex ^^^ 2 ^ low) := by
      rw [← keptIs]
      split
      · exact Or.inr rfl
      · exact Or.inl rfl
     obtain ⟨merged, maxDepth, globalDepth, localDepth, page⟩ :=
      merged_turn updates bound consistent local_eq imageLocal either
     rw [decrLocalDepth_ok bound (by omega), local_eq,
      Nat.add_sub_cancel]
     dsimp only
     have turn : Turn buckets directory _ :=
      .merge merged maxDepth (dropped_empty keptIs oneEmpty)
     obtain ⟨last, done, rest⟩ := ih fuel (turn.consistent consistent)
      (by rw [globalDepth]; exact bound) localDepth (by omega)
     rw [globalDepth, page] at done
     rw [getLocalDepth_ok]
     · rw [getLocalDepthMask_ok]
       · dsimp only
         rw [update_self, Nat.and_two_pow_sub_one_eq_mod]
         exact ⟨last, done, .head turn rest⟩
       · exact bound
     · exact bound

theorem shrinkLoop_turns (buckets : PageId → ExtendibleHTableBucketPage K V) (fuel : ℕ)
 (directory : ExtendibleHTableDirectoryPage) :
 ReflTransGen (Turn buckets) directory (shrinkLoop fuel directory) := by
 induction fuel generalizing directory with
 | zero => exact .refl
 | succ fuel ih =>
  unfold shrinkLoop
  split
  · rename_i shrinks
    exact .head (.shrink shrinks) (ih directory.decrGlobalDepth)
  · exact .refl

end

/-! ### The call -/

variable {self new : DiskExtendibleHashTable K V} {key : K}

/-- The key is no longer found, and nothing else has changed. -/
structure Removed (old new : DiskExtendibleHashTable K V) (key : K) : Prop where
 sound : new.Sound
 shape : SameShape old new
 present : old.find key ≠ none
 find : ∀ other, new.find other = if other = key then none else old.find other

omit [DecidableEq K] in
theorem setBucket_same (self : DiskExtendibleHashTable K V) (pageId : PageId) :
 self.setBucket pageId (self.buckets pageId) = self := by
 unfold setBucket
 rw [update_eq_self]

omit [DecidableEq K] in
theorem setDirectory_rebuilt (sound : self.Sound) {index : ℕ} {pageId : PageId}
 (held : self.Holds index pageId) (bucket : ExtendibleHTableBucketPage K V)
 (directory : ExtendibleHTableDirectoryPage) :
 Rebuilt self ((self.setBucket pageId bucket).setDirectory (self.directoryId index) directory)
  index (self.directoryId index) directory := by
 have kept := setBucket_rebuilt sound held bucket
 refine ⟨rfl, rfl, rfl, rfl, held.1, Or.inl rfl, kept.directoryId, ?_, kept.buckets, kept.next,
  kept.page_lt⟩
 intro other
 exact update_apply _ _ _ _

theorem removed_of_reshaped (sound : self.Sound)
 (present : self.directoryId (self.owner key) ≠ invalidPageId) {value : V}
 (found : (self.bucketOf key).lookup key = some value)
 {directory : ExtendibleHTableDirectoryPage}
 (reshaped : Reshaped self.hash self.bucketMaxSize
  (fun other => self.owner other = self.owner key)
  (Function.update self.buckets (self.bucketIdOf key)
   { self.bucketOf key with
    array := (self.bucketOf key).array.eraseP fun entry => entry.1 = key })
  (self.directoryOf key) directory) :
 Removed self
  ((self.setBucket (self.bucketIdOf key)
   { self.bucketOf key with
    array := (self.bucketOf key).array.eraseP fun entry => entry.1 = key }).setDirectory
   (self.directoryId (self.owner key)) directory) key := by
 obtain ⟨held, -⟩ := sound.bucketIdOf_held present
 obtain ⟨maxDepth, own⟩ := sound.directoryOf_sound present
 have distinct : (self.bucketOf key).Distinct := own.distinct _ held.2
 have rebuilt := setDirectory_rebuilt sound held
  { self.bucketOf key with
   array := (self.bucketOf key).array.eraseP fun entry => entry.1 = key } directory
 refine ⟨rebuilt.sound sound (rebuilt.range_of_held sound fun pageId holds =>
  ⟨present, reshaped.holds pageId holds⟩) (reshaped.maxDepth.trans maxDepth) reshaped.sound,
  rebuilt.sameShape, ?_, ?_⟩
 · unfold find
   rw [if_neg present, found]
   nofun
 · intro other
   by_cases owns : self.owner other = self.owner key
   · rw [rebuilt.find_own owns, find_of_owner owns present]
     refine (reshaped.locate other).trans ?_
     unfold locate
     by_cases here : (self.directoryOf key).view.route (self.hash other).toNat =
      self.bucketIdOf key
     · rw [here, update_self]
       by_cases same : other = key
       · rw [if_pos same, same, ExtendibleHTableBucketPage.lookup_eq_none_iff]
         intro left member
         exact ((mem_eraseP distinct).mp member).2 rfl
       · rw [if_neg same]
         apply lookup_congr
          (distinct_eraseP distinct key) distinct
         simp_all
     · rw [update_of_ne here, if_neg]
       intro same
       rw [same, ← bucketIdOf_eq] at here
       exact here rfl
   · rw [rebuilt.find_other sound owns, if_neg]
     intro same
     exact owns (by rw [same])

theorem remove_ok (updates : Updates update) (sound : self.Sound) (key : K) :
 ∃ new done, self.remove update key = .ok (new, done) ∧
  (done = true → Removed self new key) ∧
  (done = false → Kept self new ∧ self.find key = none) := by
 unfold remove
 dsimp only
 rw [getDirectoryPageId_owner]
 by_cases missing : self.directoryId (self.owner key) = invalidPageId
 · rw [if_pos missing]
   exact ⟨self, false, rfl, by simp, fun _ => ⟨Kept.refl sound, if_pos missing⟩⟩
 · have bound : self.slotOf key < 2 ^ (self.directoryOf key).globalDepth :=
    hashToBucketIndex_lt _ _
   obtain ⟨held, valid⟩ := sound.bucketIdOf_held missing
   rw [if_neg missing, ← directoryOf, ← slotOf, getBucketPageId_slotOf]
   simp only [bind, Except.bind]
   rw [if_neg valid, ← bucketOf]
   cases found : (self.bucketOf key).lookup key with
   | none =>
    rw [remove_absent found]
    refine ⟨_, false, rfl, by simp, fun _ => ?_⟩
    rw [bucketOf, setBucket_same]
    refine ⟨Kept.refl sound, ?_⟩
    unfold find
    rw [if_neg missing, found]
   | some value =>
    rw [remove_present found]
    obtain ⟨-, own⟩ := sound.directoryOf_sound missing
    have erased := own.setBucket
     { self.bucketOf key with
      array := (self.bucketOf key).array.eraseP fun entry => entry.1 = key }
     (fun entry member => own.placed _ held.2 entry (mem_of_mem_eraseP member))
     (distinct_eraseP (own.distinct _ held.2) key)
     (own.maxSize _ held.2) (length_eraseP_le.trans (own.fits _ held.2))
    rw [Bool.not_true, if_neg Bool.false_ne_true,
     getLocalDepth_ok bound]
    dsimp only
    obtain ⟨merged, done, turns⟩ := mergeLoop_turns updates _ erased.consistent bound rfl
     (le_refl _)
    have looped : mergeLoop update (self.setBucket (self.bucketIdOf key)
     { self.bucketOf key with
      array := (self.bucketOf key).array.eraseP fun entry => entry.1 = key }).buckets
     (self.slotOf key) (self.directoryOf key).globalDepth
     ((self.directoryOf key).localDepths (self.slotOf key)) (self.directoryOf key)
     (self.bucketIdOf key) ((self.directoryOf key).localDepths (self.slotOf key)) =
     .ok merged := done
    rw [looped]
    refine ⟨_, true, rfl, fun _ => ?_, by simp⟩
    exact removed_of_reshaped sound missing found
     (.of_turns erased (turns.trans (shrinkLoop_turns _ merged.globalDepth merged)))

end MyNotes.Cmu15445.DiskExtendibleHashTable
