/-
Frame accounting of the buffer pool over the LRU-K replacer.

The replacer tracks exactly the frames of mapped pages, and a frame is evictable
there exactly when its pin count is zero.  From this a call never throws, a
pinned page keeps its frame, and a null pointer means that every frame is pinned.
-/

import MyNotes.Library.Transition
import MyNotes.Cmu15445.BufferPoolFrames
import Mathlib.Data.Set.Card

namespace MyNotes.Cmu15445.BufferPoolManager

open Library.Transition Function Option LRUKReplacer

variable {Data : Type*} {self : BufferPoolManager LRUKReplacer Data}

/-- The replacer knows the mapped frames, and which of them are unpinned. -/
structure Accounted (state : BufferPoolManager LRUKReplacer Data) : Prop where
 frames : Frames state
 wellFormed : state.replacer.WellFormed
 two_le : 2 ≤ state.replacer.k
 inRange : state.poolSize ≤ state.replacer.replacerSize
 tracked : ∀ pageId frameId, state.pageTable pageId = some frameId →
  state.replacer.status frameId = some (decide ((state.pages frameId).pinCount = 0))
 untracked : ∀ frameId, (∀ pageId, state.pageTable pageId ≠ some frameId) →
  state.replacer.status frameId = none

theorem new_accounted [Zero Data] (poolSize : ℕ) {k : ℕ} (two_le : 2 ≤ k) :
 Accounted (new poolSize (LRUKReplacer.new poolSize k) :
  BufferPoolManager LRUKReplacer Data) where
 frames := new_frames poolSize _
 wellFormed := new_wellFormed poolSize k
 two_le := two_le
 inRange := Nat.le_refl poolSize
 tracked := by intro pageId frameId impossible; cases impossible
 untracked := fun _ _ => rfl

namespace Accounted

variable {frameId : FrameId}

variable (accounted : Accounted self)
include accounted

theorem status_true (evictable : self.replacer.status frameId = some true) :
 ∃ pageId, self.pageTable pageId = some frameId ∧ (self.pages frameId).pinCount = 0 := by
 by_cases found : ∃ pageId, self.pageTable pageId = some frameId
 · obtain ⟨pageId, mapped⟩ := found
   rw [accounted.tracked pageId frameId mapped] at evictable
   grind
 · rw [accounted.untracked frameId fun pageId mapped => found ⟨pageId, mapped⟩] at evictable
   cases evictable

theorem status_of_unpinned {pageId : PageId} (mapped : self.pageTable pageId = some frameId)
 (zero : (self.pages frameId).pinCount = 0) : self.replacer.status frameId = some true := by
 rw [accounted.tracked pageId frameId mapped, decide_eq_true zero]

theorem victimsMapped : VictimsMapped LRUKReplacer.replacer self := by
 intro frameId replacer evicted
 have evictable := (evict_spec accounted.wellFormed evicted).1
 obtain ⟨pageId, mapped, -⟩ := accounted.status_true evictable
 exact ⟨pageId, mapped⟩

theorem inRange_of_mapped {pageId : PageId} (mapped : self.pageTable pageId = some frameId) :
 frameId ≤ self.replacer.replacerSize := by
 have below := (accounted.frames.mapped pageId frameId mapped).1
 exact (below.trans_le accounted.inRange).le

end Accounted

/-! ### The replacer under a call -/

variable {replacer : LRUKReplacer} {frameId : FrameId}

theorem touched_exists (wellFormed : replacer.WellFormed) (two_le : 2 ≤ replacer.k)
 (inRange : frameId ≤ replacer.replacerSize) :
 ∃ after, Touched LRUKReplacer.replacer replacer frameId after ∧
  LRUKReplacer.Evolves replacer after
   (fun other => if other = frameId then some false else replacer.status other) := by
 obtain ⟨recorded, first, known⟩ := recordAccess_spec wellFormed two_le inRange
 rw [← known.replacerSize] at inRange
 obtain ⟨after, second, set⟩ := setEvictable_spec known.wellFormed inRange false
 refine ⟨after, ⟨recorded, first, second⟩, set.wellFormed, ?_, set.replacerSize.trans
  known.replacerSize, set.k.trans known.k⟩
 intro other
 rw [set.status, known.status, known.status]
 by_cases same : other = frameId
 · simp_all
 · rw [if_neg same, if_neg same, if_neg same]

theorem touched_evolves {after : LRUKReplacer} (wellFormed : replacer.WellFormed)
 (two_le : 2 ≤ replacer.k) (inRange : frameId ≤ replacer.replacerSize)
 (touched : Touched LRUKReplacer.replacer replacer frameId after) :
 LRUKReplacer.Evolves replacer after
  (fun other => if other = frameId then some false else replacer.status other) := by
 obtain ⟨expected, ⟨recorded, first, second⟩, evolves⟩ :=
  touched_exists wellFormed two_le inRange
 obtain ⟨actual, firstActual, secondActual⟩ := touched
 simp_all

/-- The replacer after a frame was chosen: only the chosen frame is forgotten. -/
structure PickedFrom (old : BufferPoolManager LRUKReplacer Data) (frameId : FrameId)
 (picked : LRUKReplacer) : Prop where
 wellFormed : picked.WellFormed
 two_le : 2 ≤ picked.k
 replacerSize : picked.replacerSize = old.replacer.replacerSize
 inRange : frameId ≤ picked.replacerSize
 others : ∀ other, other ≠ frameId → picked.status other = old.replacer.status other
 idle : ∀ pageId, old.pageTable pageId = some frameId → (old.pages frameId).pinCount = 0

theorem Picked.from (accounted : Accounted self) {rest : List FrameId} {picked : LRUKReplacer}
 (source : Picked LRUKReplacer.replacer self frameId rest picked) :
 PickedFrom self frameId picked := by
 cases source with
 | inl front =>
  obtain ⟨front, same⟩ := front
  have member : frameId ∈ self.freeList := by
   rw [front]
   exact List.mem_cons_self
  have below := accounted.frames.free_lt frameId member
  rw [same]
  refine ⟨accounted.wellFormed, accounted.two_le, rfl, (below.trans_le accounted.inRange).le,
   fun _ _ => rfl, ?_⟩
  intro pageId mapped
  exact absurd member (accounted.frames.mapped pageId frameId mapped).2.1
 | inr victim =>
  obtain ⟨-, -, evicted⟩ := victim
  obtain ⟨evictable, evolves⟩ := evict_spec accounted.wellFormed evicted
  obtain ⟨pageId, mapped, zero⟩ := accounted.status_true evictable
  refine ⟨evolves.wellFormed, ?_, evolves.replacerSize, ?_, ?_, fun _ _ => zero⟩
  · rw [evolves.k]
    exact accounted.two_le
  · rw [evolves.replacerSize]
    exact accounted.inRange_of_mapped mapped
  · intro other different
    rw [evolves.status, if_neg different]

/-! ### One call -/

variable {pageId : PageId}

section

variable (accounted : Accounted self)
include accounted

variable {frameId : FrameId}

section

variable (mapped : self.pageTable pageId = some frameId)
include mapped

theorem Accounted.setPage {page : Page Data} (same : page.pageId = (self.pages frameId).pageId)
 (disk : PageId → Data) (evolves : LRUKReplacer.Evolves self.replacer replacer (fun other =>
  if other = frameId then some (decide (page.pinCount = 0))
  else self.replacer.status other)) :
 Accounted { self.setPage frameId page with replacer := replacer, disk := disk } where
 frames := accounted.frames.setPage mapped same replacer disk
 wellFormed := evolves.wellFormed
 two_le := evolves.k ▸ accounted.two_le
 inRange := evolves.replacerSize ▸ accounted.inRange
 tracked := by
  intro otherPage other found
  change replacer.status other =
   some (decide ((update self.pages frameId page other).pinCount = 0))
  rw [evolves.status, update_apply]
  by_cases equal : other = frameId
  · rw [if_pos equal, if_pos equal]
  · rw [if_neg equal, if_neg equal]
    exact accounted.tracked otherPage other found
 untracked := by
  intro other unmapped
  rw [evolves.status, if_neg]
  · exact accounted.untracked other unmapped
  · intro equal
    exact unmapped pageId (equal ▸ mapped)

theorem Accounted.unchanged {pinCount : ℕ}
 (same : decide (pinCount = 0) = decide ((self.pages frameId).pinCount = 0)) :
 LRUKReplacer.Evolves self.replacer self.replacer (fun other =>
  if other = frameId then some (decide (pinCount = 0)) else self.replacer.status other) := by
 refine ⟨accounted.wellFormed, ?_, rfl, rfl⟩
 intro other
 by_cases equal : other = frameId
 · rw [if_pos equal, equal, same, accounted.tracked pageId frameId mapped]
 · rw [if_neg equal]

theorem Accounted.unpinned {pinCount : ℕ} (counted : (self.pages frameId).pinCount = pinCount + 1)
 (released : if pinCount = 0 then self.replacer.setEvictable frameId true = some replacer
  else replacer = self.replacer) :
 LRUKReplacer.Evolves self.replacer replacer (fun other =>
  if other = frameId then some (decide (pinCount = 0)) else self.replacer.status other) := by
 by_cases last : pinCount = 0
 · rw [if_pos last] at released
   obtain ⟨result, set, evolves⟩ := setEvictable_spec accounted.wellFormed
    (accounted.inRange_of_mapped mapped) true
   rw [set] at released
   cases released
   refine ⟨evolves.wellFormed, ?_, evolves.replacerSize, evolves.k⟩
   intro other
   rw [evolves.status, accounted.tracked pageId frameId mapped, last]
   rfl
 · rw [if_neg last] at released
   rw [released]
   apply accounted.unchanged mapped
   rw [counted, decide_eq_false last]
   rfl

end

theorem Accounted.loaded {new : BufferPoolManager LRUKReplacer Data} {rest : List FrameId}
 {picked : LRUKReplacer} {data : Data} (valid : pageId ≠ invalidPageId)
 (unmapped : self.pageTable pageId = none)
 (source : Picked LRUKReplacer.replacer self frameId rest picked)
 (adopted : Adopted self new frameId rest pageId data)
 (touched : Touched LRUKReplacer.replacer picked frameId new.replacer) : Accounted new := by
 have available := source.available accounted.frames accounted.victimsMapped
 have after := Picked.from accounted source
 have evolves := touched_evolves after.wellFormed after.two_le after.inRange touched
 refine ⟨adopted.frames accounted.frames available valid unmapped, evolves.wellFormed, ?_, ?_,
  ?_, ?_⟩
 · rw [evolves.k]
   exact after.two_le
 · rw [evolves.replacerSize, after.replacerSize, adopted.poolSize]
   exact accounted.inRange
 · intro otherPage other found
   rw [adopted.pages, evolves.status]
   by_cases same : other = frameId
   · rw [if_pos same, if_pos same]
     rfl
   · rw [if_neg same, if_neg same, after.others other same]
     rw [adopted.pageTable] at found
     by_cases target : otherPage = pageId
     · simp_all
     · rw [if_neg target] at found
       split at found
       · cases found
       · exact accounted.tracked otherPage other found
 · intro other unmappedFrame
   have different : other ≠ frameId := by
    intro same
    apply unmappedFrame pageId
    rw [adopted.pageTable, if_pos rfl, same]
   rw [evolves.status, if_neg different, after.others other different]
   apply accounted.untracked
   intro otherPage found
   apply unmappedFrame otherPage
   have notTarget : otherPage ≠ pageId := by
    intro target
    rw [target, unmapped] at found
    cases found
   rw [adopted.pageTable, if_neg notTarget, if_neg, found]
   simp_all

end

section
variable [Zero Data] {new : BufferPoolManager LRUKReplacer Data} {event : Call} {answer : Answer}

section

variable (accounted : Accounted self)
include accounted

variable {frameId : FrameId}

theorem Accounted.deleted (mapped : self.pageTable pageId = some frameId)
 (zero : (self.pages frameId).pinCount = 0)
 (removed : self.replacer.remove frameId = some replacer) :
 Accounted { self.setPage frameId emptyPage with
  pageTable := update self.pageTable pageId none
  freeList := self.freeList ++ [frameId]
  replacer := replacer } := by
 obtain ⟨result, done, evolves⟩ := remove_spec accounted.wellFormed
  (accounted.status_of_unpinned mapped zero)
 rw [done] at removed
 cases removed
 refine ⟨accounted.frames.delete mapped _, evolves.wellFormed, evolves.k ▸ accounted.two_le,
  evolves.replacerSize ▸ accounted.inRange, ?_, ?_⟩
 · intro otherPage other found
   dsimp only at found
   by_cases same : otherPage = pageId
   · simp_all
   · rw [update_of_ne same] at found
     have different : other ≠ frameId :=
      fun equal => same (accounted.frames.injective (equal ▸ found) mapped)
     change replacer.status other =
      some (decide ((update self.pages frameId emptyPage other).pinCount = 0))
     rw [evolves.status, if_neg different, update_of_ne different]
     exact accounted.tracked otherPage other found
 · intro other unmapped
   rw [evolves.status]
   by_cases same : other = frameId
   · rw [if_pos same]
   · rw [if_neg same]
     apply accounted.untracked
     intro otherPage found
     apply unmapped otherPage
     grind

theorem Accounted.effect (effect : Effect LRUKReplacer.replacer self event answer new) :
 Accounted new := by
 cases effect with
 | refused _ => exact accounted
 | hit mapped touched =>
  exact accounted.setPage mapped (by rfl) _ (touched_evolves accounted.wellFormed
   accounted.two_le (accounted.inRange_of_mapped mapped) touched)
 | loaded _ valid unmapped source adopted touched =>
  exact accounted.loaded valid unmapped source adopted touched
 | unpinned mapped counted released =>
  exact accounted.setPage mapped (by rfl) _ (accounted.unpinned mapped counted released)
 | notPinned mapped _ =>
  exact accounted.setPage mapped (by rfl) _ (accounted.unchanged mapped rfl)
 | flushed mapped =>
  exact accounted.setPage mapped (by rfl) _ (accounted.unchanged mapped rfl)
 | deleted mapped zero removed => exact accounted.deleted mapped zero removed

theorem Accounted.pinned_stays (effect : Effect LRUKReplacer.replacer self event answer new)
 (mapped : self.pageTable pageId = some frameId) (pinned : (self.pages frameId).pinCount ≠ 0) :
 new.pageTable pageId = some frameId := by
 cases effect with
 | refused _ => exact mapped
 | hit _ _ => exact mapped
 | loaded _ _ unmapped source adopted _ =>
  have idle := (Picked.from accounted source).idle
  rw [adopted.pageTable, if_neg, if_neg, mapped]
  · intro victim
    have same := Option.some.inj (mapped.symm.trans victim)
    simp_all
  · grind
 | unpinned _ _ _ => exact mapped
 | notPinned _ _ => exact mapped
 | flushed _ => exact mapped
 | deleted victim zero _ =>
  grind

omit [Zero Data] in
theorem Accounted.all_pinned (free : self.freeList = []) (victim : self.replacer.evict = none)
 (below : frameId < self.poolSize) :
 ∃ pageId, self.pageTable pageId = some frameId ∧ (self.pages frameId).pinCount ≠ 0 := by
 cases accounted.frames.covered frameId below with
 | inl member =>
  rw [free] at member
  cases member
 | inr found =>
  obtain ⟨pageId, mapped⟩ := found
  refine ⟨pageId, mapped, fun zero => ?_⟩
  obtain ⟨chosen, after, evicted, -⟩ := evict_some accounted.wellFormed
   (accounted.status_of_unpinned mapped zero)
  rw [victim] at evicted
  cases evicted

/-! ### No call throws -/

theorem Accounted.load_total (pageId : PageId) {taken : BufferPoolManager LRUKReplacer Data}
 (pick : self.pickFrame LRUKReplacer.replacer = some (frameId, taken)) :
 ∃ adopted, taken.adopt LRUKReplacer.replacer frameId pageId = some adopted := by
 obtain ⟨rest, picked, same, source⟩ := pickFrame_some pick
 have after := Picked.from accounted source
 obtain ⟨replacer, touched, -⟩ := touched_exists after.wellFormed after.two_le after.inRange
 rw [same]
 exact adopt_total touched

theorem Accounted.fetchPage_total (pageId : PageId) :
 ∃ result, self.fetchPage LRUKReplacer.replacer pageId = some result := by
 unfold fetchPage
 by_cases invalid : pageId = invalidPageId
 · rw [if_pos invalid]
   exact ⟨_, rfl⟩
 · rw [if_neg invalid]
   cases found : self.pageTable pageId with
   | some frameId =>
    obtain ⟨replacer, touched, -⟩ := touched_exists accounted.wellFormed accounted.two_le
     (accounted.inRange_of_mapped found)
    dsimp only
    rw [touch_total touched]
    exact ⟨_, rfl⟩
   | none =>
    cases pick : self.pickFrame LRUKReplacer.replacer with
    | none => exact ⟨_, rfl⟩
    | some choice =>
     obtain ⟨adopted, done⟩ := accounted.load_total pageId pick
     simp_all

theorem Accounted.newPage_total (allocated : PageId) :
 ∃ result, self.newPage LRUKReplacer.replacer allocated = some result := by
 unfold newPage
 cases pick : self.pickFrame LRUKReplacer.replacer with
 | none => exact ⟨_, rfl⟩
 | some choice =>
  obtain ⟨adopted, done⟩ := accounted.load_total allocated pick
  simp_all

omit [Zero Data] in
theorem Accounted.unpinPage_total (pageId : PageId) (isDirty : Bool) :
 ∃ result, self.unpinPage LRUKReplacer.replacer pageId isDirty = some result := by
 unfold unpinPage
 by_cases invalid : pageId = invalidPageId
 · rw [if_pos invalid]
   exact ⟨_, rfl⟩
 · rw [if_neg invalid]
   cases found : self.pageTable pageId with
   | none => exact ⟨_, rfl⟩
   | some frameId =>
    obtain ⟨replacer, set, -⟩ := setEvictable_spec accounted.wellFormed
     (accounted.inRange_of_mapped found) true
    dsimp only
    by_cases zero : (self.pages frameId).pinCount = 0
    · rw [if_pos zero]
      exact ⟨_, rfl⟩
    · rw [if_neg zero]
      by_cases last : (self.pages frameId).pinCount - 1 = 0
      · rw [if_pos last]
        exact ⟨_, map_eq_some_iff.mpr ⟨replacer, set, rfl⟩⟩
      · rw [if_neg last]
        exact ⟨_, rfl⟩

theorem Accounted.deletePage_total (pageId : PageId) :
 ∃ result, self.deletePage LRUKReplacer.replacer pageId = some result := by
 unfold deletePage
 by_cases invalid : pageId = invalidPageId
 · rw [if_pos invalid]
   exact ⟨_, rfl⟩
 · rw [if_neg invalid]
   cases found : self.pageTable pageId with
   | none => exact ⟨_, rfl⟩
   | some frameId =>
    dsimp only
    by_cases pinned : (self.pages frameId).pinCount > 0
    · rw [if_pos pinned]
      exact ⟨_, rfl⟩
    · rw [if_neg pinned]
      obtain ⟨replacer, removed, -⟩ := remove_spec accounted.wellFormed
       (accounted.status_of_unpinned found (by omega))
      exact ⟨_, map_eq_some_iff.mpr ⟨replacer, removed, rfl⟩⟩

theorem Accounted.call_total (event : Call) :
 ∃ result, self.call LRUKReplacer.replacer event = some result := by
 cases event with
 | newPage allocated =>
  obtain ⟨result, done⟩ := accounted.newPage_total allocated
  exact ⟨_, map_eq_some_iff.mpr ⟨result, done, rfl⟩⟩
 | fetchPage pageId =>
  obtain ⟨result, done⟩ := accounted.fetchPage_total pageId
  exact ⟨_, map_eq_some_iff.mpr ⟨result, done, rfl⟩⟩
 | unpinPage pageId isDirty =>
  obtain ⟨result, done⟩ := accounted.unpinPage_total pageId isDirty
  exact ⟨_, map_eq_some_iff.mpr ⟨result, done, rfl⟩⟩
 | flushPage pageId => exact ⟨_, rfl⟩
 | deletePage pageId =>
  obtain ⟨result, done⟩ := accounted.deletePage_total pageId
  exact ⟨_, map_eq_some_iff.mpr ⟨result, done, rfl⟩⟩

end

/-! ### Every run -/

theorem accounted_of_run {poolSize k : ℕ} (two_le : 2 ≤ k) {events : List Call}
 (run : Run (Guarded Fresh (ofFunction (step LRUKReplacer.replacer)))
  (BufferPoolManager.new poolSize (LRUKReplacer.new poolSize k)) events self) :
 Accounted self := by
 apply run.invariant (new_accounted poolSize two_le)
 intro state event next accounted taken
 obtain ⟨fresh, stepped⟩ := taken
 obtain ⟨⟨after, answer⟩, done, same⟩ := map_eq_some_iff.mp stepped
 cases same
 exact accounted.effect (call_effect accounted.frames accounted.victimsMapped fresh done)

def unpinnedFrames (state : BufferPoolManager LRUKReplacer Data) : Set FrameId :=
 {frameId | (∃ pageId, state.pageTable pageId = some frameId) ∧
  (state.pages frameId).pinCount = 0}

structure Accounting (state : BufferPoolManager LRUKReplacer Data) : Prop where
 free_or_mapped : ∀ frameId < state.poolSize,
  (state.freeList.count frameId = 1 ∧ ∀ pageId, state.pageTable pageId ≠ some frameId) ∨
   (frameId ∉ state.freeList ∧ state.pageTable (state.pages frameId).pageId = some frameId ∧
    ∀ pageId, state.pageTable pageId = some frameId → pageId = (state.pages frameId).pageId)
 inFrames : ∀ frameId,
  (frameId ∈ state.freeList ∨ ∃ pageId, state.pageTable pageId = some frameId) →
   frameId < state.poolSize
 injective : ∀ first second frameId, state.pageTable first = some frameId →
  state.pageTable second = some frameId → first = second
 evictable : ∀ pageId frameId, state.pageTable pageId = some frameId →
  ∃ flag, state.replacer.status frameId = some flag ∧
   (flag = true ↔ (state.pages frameId).pinCount = 0)
 size : state.replacer.size = (unpinnedFrames state).ncard
 pinned : ∀ event next answer, Fresh state event →
  state.call LRUKReplacer.replacer event = some (next, answer) →
  ∀ pageId frameId, state.pageTable pageId = some frameId →
   (state.pages frameId).pinCount ≠ 0 → next.pageTable pageId = some frameId
 never_throws : ∀ event, ∃ result, state.call LRUKReplacer.replacer event = some result
 null : ∀ event next, Fresh state event → event ≠ .fetchPage invalidPageId →
  state.call LRUKReplacer.replacer event = some (next, .pointer none) →
  ∀ frameId < state.poolSize,
   ∃ pageId, state.pageTable pageId = some frameId ∧ (state.pages frameId).pinCount ≠ 0

omit [Zero Data] in
theorem Accounted.size (accounted : Accounted self) :
 self.replacer.size = (unpinnedFrames self).ncard := by
 classical
 have finite : (unpinnedFrames self).Finite := by
  apply (Set.finite_lt_nat self.poolSize).subset
  intro frameId member
  obtain ⟨⟨pageId, mapped⟩, -⟩ := member
  exact (accounted.frames.mapped pageId frameId mapped).1
 rw [Set.ncard_eq_toFinset_card _ finite, ← Finset.length_toList]
 apply size_eq_length accounted.wellFormed (Finset.nodup_toList _)
 intro frameId
 rw [Finset.mem_toList, Set.Finite.mem_toFinset]
 constructor
 · intro member
   obtain ⟨⟨pageId, mapped⟩, zero⟩ := member
   exact accounted.status_of_unpinned mapped zero
 · intro flag
   obtain ⟨pageId, mapped, zero⟩ := accounted.status_true flag
   exact ⟨⟨pageId, mapped⟩, zero⟩

omit [Zero Data] in
theorem Accounted.free_or_mapped (accounted : Accounted self) {frameId : FrameId}
 (below : frameId < self.poolSize) :
 (self.freeList.count frameId = 1 ∧ ∀ pageId, self.pageTable pageId ≠ some frameId) ∨
  (frameId ∉ self.freeList ∧ self.pageTable (self.pages frameId).pageId = some frameId ∧
   ∀ pageId, self.pageTable pageId = some frameId →
    pageId = (self.pages frameId).pageId) := by
 have mapped := accounted.frames.mapped
 cases accounted.frames.covered frameId below with
 | inl member =>
  refine Or.inl ⟨List.count_eq_one_of_mem accounted.frames.free_nodup member, ?_⟩
  grind
 | inr found =>
  obtain ⟨pageId, found⟩ := found
  obtain ⟨-, notFree, carries, -⟩ := mapped pageId frameId found
  refine Or.inr ⟨notFree, by rw [carries, found], ?_⟩
  grind

theorem Accounted.null (accounted : Accounted self) (fresh : Fresh self event)
 (valid : event ≠ .fetchPage invalidPageId)
 (done : self.call LRUKReplacer.replacer event = some (new, .pointer none)) {frameId : FrameId}
 (below : frameId < self.poolSize) :
 ∃ pageId, self.pageTable pageId = some frameId ∧ (self.pages frameId).pinCount ≠ 0 := by
 cases call_effect accounted.frames accounted.victimsMapped fresh done with
 | refused why =>
  cases why with
  | noFrame free victim => exact accounted.all_pinned free victim below
  | invalid => exact absurd rfl valid

/-- Every state that the pool reaches over an LRU-K replacer is accounted for. -/
theorem frame_accounting {poolSize k : ℕ} (two_le : 2 ≤ k) {events : List Call}
 {state : BufferPoolManager LRUKReplacer Data}
 (run : Run (Guarded Fresh (ofFunction (step LRUKReplacer.replacer)))
  (BufferPoolManager.new poolSize (LRUKReplacer.new poolSize k)) events state) :
 Accounting state := by
 have accounted := accounted_of_run two_le run
 refine ⟨fun _ => accounted.free_or_mapped, ?_, fun _ _ _ => accounted.frames.injective, ?_,
  accounted.size, ?_, accounted.call_total, ?_⟩
 · intro frameId known
   cases known with
   | inl free => exact accounted.frames.free_lt frameId free
   | inr found =>
    obtain ⟨pageId, mapped⟩ := found
    exact (accounted.frames.mapped pageId frameId mapped).1
 · intro pageId frameId mapped
   exact ⟨_, accounted.tracked pageId frameId mapped, decide_eq_true_iff⟩
 · intro event next answer fresh done pageId frameId
   exact accounted.pinned_stays (call_effect accounted.frames accounted.victimsMapped fresh done)
 · intro event next fresh valid done frameId
   exact accounted.null fresh valid done

end

theorem frame_accounting_evicting :
 ∃ state : BufferPoolManager LRUKReplacer ℕ,
  Run (Guarded Fresh (ofFunction (step LRUKReplacer.replacer)))
   (BufferPoolManager.new 1 (LRUKReplacer.new 1 2))
   [.newPage 0, .unpinPage 0 true, .newPage 1, .unpinPage 1 false, .fetchPage 0,
    .unpinPage 0 false, .deletePage 0] state ∧
  Accounting state := by
 obtain ⟨state, replayed⟩ := isSome_iff_exists.mp
  (show (replay (restrict Fresh (step LRUKReplacer.replacer))
   (BufferPoolManager.new 1 (LRUKReplacer.new 1 2) : BufferPoolManager LRUKReplacer ℕ)
   [.newPage 0, .unpinPage 0 true, .newPage 1, .unpinPage 1 false, .fetchPage 0,
    .unpinPage 0 false, .deletePage 0]).isSome = true by decide)
 have run := Run.of_replay replayed
 exact ⟨state, run, frame_accounting (by decide) run⟩

/-- `FetchPage` of the invalid id is a null pointer though a frame is free; and an
id that a client has fetched before `AllocatePage` returns it is left with one
frame that is neither free nor mapped. -/
theorem frame_accounting_fails_for_foreign_ids :
 (∃ next : BufferPoolManager LRUKReplacer ℕ,
  call LRUKReplacer.replacer (BufferPoolManager.new 1 (LRUKReplacer.new 1 2))
   (.fetchPage invalidPageId) = some (next, .pointer none) ∧
   0 ∈ next.freeList) ∧
 ∃ state : BufferPoolManager LRUKReplacer ℕ,
  Run (ofFunction (step LRUKReplacer.replacer))
   (BufferPoolManager.new 2 (LRUKReplacer.new 2 2)) [.fetchPage 0, .newPage 0] state ∧
  1 < state.poolSize ∧ 1 ∉ state.freeList ∧
   ¬ ∃ pageId, state.pageTable pageId = some 1 ∧ (state.pages 1).pageId = pageId := by
 refine ⟨⟨_, rfl, by decide⟩, ?_⟩
 have final : (replay (step LRUKReplacer.replacer)
  (BufferPoolManager.new 2 (LRUKReplacer.new 2 2) : BufferPoolManager LRUKReplacer ℕ)
  [.fetchPage 0, .newPage 0]).map
  (fun state => (state.poolSize, state.freeList, (state.pages 1).pageId,
   state.pageTable 0)) = some (2, [], 0, some 0) := by decide
 obtain ⟨state, replayed, visible⟩ := map_eq_some_iff.mp final
 rw [Prod.mk.injEq, Prod.mk.injEq, Prod.mk.injEq] at visible
 obtain ⟨poolSize, freeList, carried, mapped⟩ := visible
 refine ⟨state, Run.of_replay_all replayed, ?_, ?_, ?_⟩
 · rw [poolSize]
   decide
 · rw [freeList]
   exact List.not_mem_nil
 · simp_all

end MyNotes.Cmu15445.BufferPoolManager
