/-
Frame accounting of the buffer pool.

A frame is in the free list or mapped by one page.  The specification of each
operation says which frame it touches and how; the accounting and, in the next
module, the transparency of the pool follow from it.
-/

import MyNotes.Cmu15445.BufferPool

namespace MyNotes.Cmu15445.BufferPoolManager

open Function List Option

variable {σ Data : Type*} {R : Replacer σ} {self : BufferPoolManager σ Data}

/-- Every frame is free, once, or the frame of exactly one page. -/
structure Frames (state : BufferPoolManager σ Data) : Prop where
 free_nodup : state.freeList.Nodup
 free_lt : ∀ frameId ∈ state.freeList, frameId < state.poolSize
 free_empty : ∀ frameId ∈ state.freeList,
  (state.pages frameId).pageId = invalidPageId ∧ (state.pages frameId).isDirty = false
 mapped : ∀ pageId frameId, state.pageTable pageId = some frameId →
  frameId < state.poolSize ∧ frameId ∉ state.freeList ∧
   (state.pages frameId).pageId = pageId ∧ pageId ≠ invalidPageId
 covered : ∀ frameId < state.poolSize,
  frameId ∈ state.freeList ∨ ∃ pageId, state.pageTable pageId = some frameId

theorem new_frames [Zero Data] (poolSize : ℕ) (replacer : σ) :
 Frames (new poolSize replacer : BufferPoolManager σ Data) where
 free_nodup := nodup_range
 free_lt := fun _ member => mem_range.mp member
 free_empty := fun _ _ => ⟨rfl, rfl⟩
 mapped := by intro pageId frameId impossible; cases impossible
 covered := fun _ below => .inl (mem_range.mpr below)

namespace Frames

theorem injective (frames : Frames self) {first second : PageId} {frameId : FrameId}
 (one : self.pageTable first = some frameId) (two : self.pageTable second = some frameId) :
 first = second := by
 rw [← (frames.mapped first frameId one).2.2.1, (frames.mapped second frameId two).2.2.1]

theorem invalid_unmapped (frames : Frames self) : self.pageTable invalidPageId = none := by
 cases found : self.pageTable invalidPageId with
 | none => rfl
 | some frameId => exact ((frames.mapped _ _ found).2.2.2 rfl).elim

end Frames

/-- The frame that an operation may give away: one from the free list, or one
whose page is mapped. -/
structure Available (state : BufferPoolManager σ Data) (frameId : FrameId) (rest : List FrameId) :
 Prop where
 below : frameId < state.poolSize
 source : (state.freeList = frameId :: rest) ∨
  (state.freeList = rest ∧ ∃ pageId, state.pageTable pageId = some frameId)

variable {frameId : FrameId} {rest : List FrameId}

theorem Available.free_iff (frames : Frames self) (available : Available self frameId rest)
 (other : FrameId) :
 other ∈ rest ↔ other ≠ frameId ∧ other ∈ self.freeList := by
 rcases available.source with front | ⟨same, pageId, mapped⟩
 · have nodup := frames.free_nodup
   rw [front] at nodup ⊢
   rw [mem_cons]
   constructor
   · grind
   · rintro ⟨different, equal | member⟩
     · exact (different equal).elim
     · exact member
 · have notFree := (frames.mapped pageId frameId mapped).2.1
   rw [same] at notFree ⊢
   constructor
   · grind
   · exact And.right

structure Adopted (old new : BufferPoolManager σ Data) (frameId : FrameId) (rest : List FrameId)
 (pageId : PageId) (data : Data) : Prop where
 poolSize : new.poolSize = old.poolSize
 freeList : new.freeList = rest
 pages : ∀ other, new.pages other =
  if other = frameId then ⟨data, pageId, 1, false⟩ else old.pages other
 pageTable : ∀ other, new.pageTable other =
  if other = pageId then some frameId
  else if old.pageTable other = some frameId then none
  else old.pageTable other
 disk : new.disk =
  if (old.pages frameId).isDirty then
   update old.disk (old.pages frameId).pageId (old.pages frameId).data
  else old.disk

variable {pageId : PageId}

theorem Adopted.frames {new : BufferPoolManager σ Data} {data : Data} (frames : Frames self)
 (available : Available self frameId rest) (valid : pageId ≠ invalidPageId)
 (unmapped : self.pageTable pageId = none) (adopted : Adopted self new frameId rest pageId data)
 :
 Frames new := by
 have free := available.free_iff frames
 refine ⟨?_, ?_, ?_, ?_, ?_⟩
 · rw [adopted.freeList]
   rcases available.source with front | ⟨same, -⟩
   · have nodup := frames.free_nodup
     grind
   · rw [← same]
     exact frames.free_nodup
 · intro other member
   rw [adopted.freeList, free] at member
   rw [adopted.poolSize]
   exact frames.free_lt other member.2
 · intro other member
   rw [adopted.freeList, free] at member
   rw [adopted.pages, if_neg member.1]
   exact frames.free_empty other member.2
 · intro otherPage otherFrame found
   rw [adopted.pageTable] at found
   rw [adopted.poolSize, adopted.freeList, free, adopted.pages]
   by_cases same : otherPage = pageId
   · rw [if_pos same] at found
     rw [← Option.some.inj found, if_pos rfl]
     exact ⟨available.below, fun member => member.1 rfl, same.symm, same ▸ valid⟩
   · rw [if_neg same] at found
     by_cases evicted : self.pageTable otherPage = some frameId
     · simp_all
     · rw [if_neg evicted] at found
       have old := frames.mapped otherPage otherFrame found
       have different : otherFrame ≠ frameId := fun equal => evicted (equal ▸ found)
       simp_all
 · intro other below
   rw [adopted.poolSize] at below
   rw [adopted.freeList, free]
   by_cases same : other = frameId
   · exact .inr ⟨pageId, by rw [adopted.pageTable, if_pos rfl, same]⟩
   · rcases frames.covered other below with member | ⟨otherPage, found⟩
     · exact .inl ⟨same, member⟩
     · by_cases target : otherPage = pageId
       · simp_all
       · refine .inr ⟨otherPage, ?_⟩
         rw [adopted.pageTable, if_neg target, if_neg, found]
         simp_all

/-! ### Taking a frame -/

/-- Where a chosen frame comes from: the head of the free list with the replacer
as it was, or a victim of the replacer. -/
def Picked (R : Replacer σ) (state : BufferPoolManager σ Data) (frameId : FrameId)
 (rest : List FrameId) (replacer : σ) : Prop :=
 (state.freeList = frameId :: rest ∧ replacer = state.replacer) ∨
  (state.freeList = [] ∧ rest = [] ∧ R.evict state.replacer = some (frameId, replacer))

/-- The replacer has recorded an access to a frame that it may not evict. -/
def Touched (R : Replacer σ) (before : σ) (frameId : FrameId) (after : σ) : Prop :=
 ∃ recorded, R.recordAccess before frameId = some recorded ∧
  R.setEvictable recorded frameId false = some after

theorem pickFrame_some {taken : BufferPoolManager σ Data}
 (done : self.pickFrame R = some (frameId, taken)) :
 ∃ rest replacer, taken = { self with freeList := rest, replacer := replacer } ∧
  Picked R self frameId rest replacer := by
 unfold pickFrame at done
 cases free : self.freeList with
 | cons front rest =>
  rw [free] at done
  cases done
  exact ⟨rest, self.replacer, rfl, .inl ⟨free, rfl⟩⟩
 | nil =>
  rw [free] at done
  obtain ⟨victim, evicted, same⟩ := map_eq_some_iff.mp done
  cases same
  exact ⟨[], victim.2, by rw [← free], .inr ⟨free, rfl, evicted⟩⟩

theorem pickFrame_none (nothing : self.pickFrame R = none) :
 self.freeList = [] ∧ R.evict self.replacer = none := by
 unfold pickFrame at nothing
 cases free : self.freeList with
 | cons front rest =>
  rw [free] at nothing
  cases nothing
 | nil =>
  simp_all

section

variable (self : BufferPoolManager σ Data)

theorem writeBack_pages (frameId other : FrameId) :
 (self.writeBack frameId).pages other =
  if other = frameId then { self.pages frameId with isDirty := false }
  else self.pages other := by
 unfold writeBack
 dsimp only
 cases dirty : (self.pages frameId).isDirty with
 | true =>
  rw [if_pos rfl]
  exact update_apply _ _ _ _
 | false =>
  rw [if_neg Bool.false_ne_true]
  by_cases same : other = frameId
  · rw [if_pos same, same, ← dirty]
  · rw [if_neg same]

theorem writeBack_disk (frameId : FrameId) :
 (self.writeBack frameId).disk =
  if (self.pages frameId).isDirty then
   update self.disk (self.pages frameId).pageId (self.pages frameId).data
  else self.disk := by
 unfold writeBack
 grind

theorem writeBack_frame (frameId : FrameId) :
 (self.writeBack frameId).poolSize = self.poolSize ∧
  (self.writeBack frameId).pageTable = self.pageTable ∧
  (self.writeBack frameId).freeList = self.freeList ∧
  (self.writeBack frameId).replacer = self.replacer := by
 unfold writeBack
 dsimp only
 cases (self.pages frameId).isDirty <;> exact ⟨rfl, rfl, rfl, rfl⟩

end

theorem touch_some {touched : BufferPoolManager σ Data} (done : self.touch R frameId = some touched)
 :
 ∃ replacer, Touched R self.replacer frameId replacer ∧
  touched = { self with replacer := replacer } := by
 obtain ⟨recorded, first, second⟩ := bind_eq_some_iff.mp done
 obtain ⟨replacer, set, same⟩ := map_eq_some_iff.mp second
 exact ⟨replacer, ⟨recorded, first, set⟩, same.symm⟩

variable {replacer : σ}

theorem touch_total (touched : Touched R self.replacer frameId replacer) :
 self.touch R frameId = some { self with replacer := replacer } := by
 obtain ⟨recorded, first, second⟩ := touched
 rw [touch, first, bind_some, second]
 rfl

theorem emplace_apply (frames : Frames self) (available : Available self frameId rest)
 (unmapped : self.pageTable pageId = none) (other : PageId) :
 emplace (update self.pageTable (self.pages frameId).pageId none) pageId frameId
  other =
  if other = pageId then some frameId
  else if self.pageTable other = some frameId then none
  else self.pageTable other := by
 have erased : update self.pageTable (self.pages frameId).pageId none pageId = none := by
  rw [update_apply, unmapped, ite_self]
 unfold emplace
 rw [erased]
 dsimp only
 rw [update_apply]
 by_cases same : other = pageId
 · rw [if_pos same, if_pos same]
 · rw [if_neg same, if_neg same, update_apply]
   by_cases owner : other = (self.pages frameId).pageId
   · rw [if_pos owner, owner]
     rcases available.source with front | ⟨-, ownerPage, mapped⟩
     · have empty := (frames.free_empty frameId (by rw [front]; exact mem_cons_self)).1
       rw [empty, frames.invalid_unmapped, ite_self]
     · rw [(frames.mapped ownerPage frameId mapped).2.2.1, if_pos mapped]
   · rw [if_neg owner, if_neg]
     intro mapped
     exact owner (frames.mapped other frameId mapped).2.2.1.symm

theorem adopt_some [Zero Data] {new : BufferPoolManager σ Data} (frames : Frames self)
 (available : Available self frameId rest) (unmapped : self.pageTable pageId = none)
 (done : adopt R { self with freeList := rest, replacer := replacer } frameId pageId =
  some new) :
 Adopted self new frameId rest pageId 0 ∧ Touched R replacer frameId new.replacer := by
 obtain ⟨last, touched, same⟩ := touch_some done
 have page := writeBack_pages { self with freeList := rest, replacer := replacer } frameId
 have disk := writeBack_disk { self with freeList := rest, replacer := replacer } frameId
 obtain ⟨poolSize, pageTable, freeList, kept⟩ :=
  writeBack_frame { self with freeList := rest, replacer := replacer } frameId
 have own := page frameId
 rw [if_pos rfl] at own
 rw [same]
 constructor
 · refine ⟨poolSize, freeList, ?_, ?_, disk⟩
   · intro other
     change update _ frameId _ other = _
     rw [update_apply]
     split
     · rw [own]
     · simp_all
   · intro other
     rw [pageTable, own]
     exact emplace_apply frames available unmapped other
 · have start : (writeBack { self with freeList := rest, replacer := replacer }
    frameId).replacer = replacer := kept
   rw [← start]
   exact touched

theorem adopt_total [Zero Data] (touched : Touched R self.replacer frameId replacer) :
 ∃ new, self.adopt R frameId pageId = some new := by
 have kept := (writeBack_frame self frameId).2.2.2
 rw [← kept] at touched
 exact ⟨_, touch_total touched⟩

/-! ### What a call does -/

/-- A call that gives a frame to a page, the page, and what it finds there. -/
inductive Loads [Zero Data] (new : BufferPoolManager σ Data) : Call → PageId → Data → Prop
 | fetched (pageId : PageId) : Loads new (.fetchPage pageId) pageId (new.disk pageId)
 | created (allocated : PageId) : Loads new (.newPage allocated) allocated 0

inductive Refused (R : Replacer σ) (old : BufferPoolManager σ Data) : Call → Answer → Prop
 | noFrame {event : Call} (free : old.freeList = []) (victim : R.evict old.replacer = none) :
  Refused R old event (.pointer none)
 | invalid : Refused R old (.fetchPage invalidPageId) (.pointer none)
 | absent {pageId : PageId} {event : Call} {success : Bool}
  (request : (∃ isDirty, event = .unpinPage pageId isDirty) ∨ event = .flushPage pageId ∨
   event = .deletePage pageId)
  (unmapped : old.pageTable pageId = none) : Refused R old event (.flag success)
 | pinned {pageId : PageId} {frameId : FrameId} (mapped : old.pageTable pageId = some frameId)
  (held : (old.pages frameId).pinCount ≠ 0) :
  Refused R old (.deletePage pageId) (.flag false)

inductive Effect [Zero Data] (R : Replacer σ) (old : BufferPoolManager σ Data) :
 Call → Answer → BufferPoolManager σ Data → Prop
 | refused {event : Call} {answer : Answer} (why : Refused R old event answer) :
  Effect R old event answer old
 | hit {pageId : PageId} {frameId : FrameId} {replacer : σ}
  (mapped : old.pageTable pageId = some frameId)
  (touched : Touched R old.replacer frameId replacer) :
  Effect R old (.fetchPage pageId) (.pointer (some frameId))
   { old.setPage frameId
    { old.pages frameId with pinCount := (old.pages frameId).pinCount + 1 } with
    replacer := replacer }
 | loaded {event : Call} {pageId : PageId} {frameId : FrameId} {rest : List FrameId}
  {picked : σ} {data : Data} {new : BufferPoolManager σ Data}
  (loads : Loads new event pageId data) (valid : pageId ≠ invalidPageId)
  (unmapped : old.pageTable pageId = none) (source : Picked R old frameId rest picked)
  (adopted : Adopted old new frameId rest pageId data)
  (touched : Touched R picked frameId new.replacer) :
  Effect R old event (.pointer (some frameId)) new
 | unpinned {pageId : PageId} {frameId : FrameId} {isDirty : Bool} {pinCount : ℕ} {replacer : σ}
  (mapped : old.pageTable pageId = some frameId)
  (counted : (old.pages frameId).pinCount = pinCount + 1)
  (released : if pinCount = 0 then R.setEvictable old.replacer frameId true = some replacer
   else replacer = old.replacer) :
  Effect R old (.unpinPage pageId isDirty) (.flag true)
   { old.setPage frameId
    { old.pages frameId with
     pinCount := pinCount
     isDirty := isDirty || (old.pages frameId).isDirty } with
    replacer := replacer }
 | notPinned {pageId : PageId} {frameId : FrameId} {isDirty : Bool}
  (mapped : old.pageTable pageId = some frameId) (zero : (old.pages frameId).pinCount = 0) :
  Effect R old (.unpinPage pageId isDirty) (.flag false)
   (old.setPage frameId
    { old.pages frameId with isDirty := isDirty || (old.pages frameId).isDirty })
 | flushed {pageId : PageId} {frameId : FrameId}
  (mapped : old.pageTable pageId = some frameId) :
  Effect R old (.flushPage pageId) (.flag true)
   { old.setPage frameId { old.pages frameId with isDirty := false } with
    disk := update old.disk (old.pages frameId).pageId (old.pages frameId).data }
 | deleted {pageId : PageId} {frameId : FrameId} {replacer : σ}
  (mapped : old.pageTable pageId = some frameId) (zero : (old.pages frameId).pinCount = 0)
  (removed : R.remove old.replacer frameId = some replacer) :
  Effect R old (.deletePage pageId) (.flag true)
   { old.setPage frameId emptyPage with
    pageTable := update old.pageTable pageId none
    freeList := old.freeList ++ [frameId]
    replacer := replacer }

/-- The frames a replacer gives up are frames of mapped pages. -/
def VictimsMapped (R : Replacer σ) (state : BufferPoolManager σ Data) : Prop :=
 ∀ frameId replacer, R.evict state.replacer = some (frameId, replacer) →
  ∃ pageId, state.pageTable pageId = some frameId

/-- The id that `AllocatePage` returns is an id, and not of a page in the pool. -/
def Fresh (state : BufferPoolManager σ Data) : Call → Prop
 | .newPage allocated => allocated ≠ invalidPageId ∧ state.pageTable allocated = none
 | _ => True

instance (state : BufferPoolManager σ Data) (event : Call) : Decidable (Fresh state event) :=
 match event with
 | .newPage allocated =>
  inferInstanceAs (Decidable (allocated ≠ invalidPageId ∧ state.pageTable allocated = none))
 | .fetchPage _ | .unpinPage _ _ | .flushPage _ | .deletePage _ =>
  inferInstanceAs (Decidable True)

theorem Picked.available (frames : Frames self) (victims : VictimsMapped R self)
 (source : Picked R self frameId rest replacer) : Available self frameId rest := by
 rcases source with ⟨front, -⟩ | ⟨empty, none, evicted⟩
 · exact ⟨frames.free_lt frameId (by rw [front]; exact mem_cons_self), .inl front⟩
 · obtain ⟨pageId, mapped⟩ := victims frameId replacer evicted
   exact ⟨(frames.mapped pageId frameId mapped).1, .inr ⟨by rw [none, empty], pageId, mapped⟩⟩

variable [Zero Data] {new : BufferPoolManager σ Data}

variable (frames : Frames self)
include frames

section

variable (victims : VictimsMapped R self)
include victims

theorem adopt_picked {taken : BufferPoolManager σ Data} (unmapped : self.pageTable pageId = none)
 (pick : self.pickFrame R = some (frameId, taken))
 (done : adopt R taken frameId pageId = some new) :
 ∃ rest replacer, Picked R self frameId rest replacer ∧
  Adopted self new frameId rest pageId 0 ∧ Touched R replacer frameId new.replacer := by
 obtain ⟨rest, replacer, equal, source⟩ := pickFrame_some pick
 rw [equal] at done
 exact ⟨rest, replacer, source, adopt_some frames (source.available frames victims) unmapped done⟩

theorem fetchPage_effect {answer : Option FrameId}
 (done : self.fetchPage R pageId = some (new, answer)) :
 Effect R self (.fetchPage pageId) (.pointer answer) new := by
 unfold fetchPage at done
 by_cases invalid : pageId = invalidPageId
 · rw [if_pos invalid] at done
   cases done
   rw [invalid]
   exact .refused .invalid
 · rw [if_neg invalid] at done
   cases found : self.pageTable pageId with
   | some frameId =>
    rw [found] at done
    obtain ⟨touchedPool, touch, same⟩ := map_eq_some_iff.mp done
    obtain ⟨replacer, touched, equal⟩ := touch_some touch
    rw [equal] at same
    cases same
    exact .hit found touched
   | none =>
    rw [found] at done
    cases pick : self.pickFrame R with
    | none =>
     rw [pick] at done
     cases done
     obtain ⟨free, victim⟩ := pickFrame_none pick
     exact .refused (.noFrame free victim)
    | some choice =>
     obtain ⟨frameId, taken⟩ := choice
     rw [pick] at done
     obtain ⟨adoptedPool, adopt, same⟩ := map_eq_some_iff.mp done
     obtain ⟨rest, picked, source, adopted, touched⟩ :=
      adopt_picked frames victims found pick adopt
     cases same
     refine .loaded (.fetched pageId) invalid found source ?_ touched
     have own := adopted.pages frameId
     rw [if_pos rfl] at own
     -- The read fills the frame with the disk's bytes, after the write-back.
     refine ⟨adopted.poolSize, adopted.freeList, ?_, adopted.pageTable, adopted.disk⟩
     intro other
     change update _ frameId _ other = _
     rw [update_apply, own]
     split
     · rfl
     · rename_i different
       rw [adopted.pages, if_neg different]

theorem newPage_effect {allocated : PageId} (valid : allocated ≠ invalidPageId)
 (unmapped : self.pageTable allocated = none) {answer : Option FrameId}
 (done : self.newPage R allocated = some (new, answer)) :
 Effect R self (.newPage allocated) (.pointer answer) new := by
 unfold newPage at done
 cases pick : self.pickFrame R with
 | none =>
  rw [pick] at done
  cases done
  obtain ⟨free, victim⟩ := pickFrame_none pick
  exact .refused (.noFrame free victim)
 | some choice =>
  rw [pick] at done
  obtain ⟨adoptedPool, adopt, same⟩ := map_eq_some_iff.mp done
  obtain ⟨rest, picked, source, adopted, touched⟩ :=
   adopt_picked frames victims unmapped pick adopt
  cases same
  exact .loaded (.created allocated) valid unmapped source adopted touched

end

theorem unpinPage_effect {isDirty answer : Bool}
 (done : self.unpinPage R pageId isDirty = some (new, answer)) :
 Effect R self (.unpinPage pageId isDirty) (.flag answer) new := by
 unfold unpinPage at done
 by_cases invalid : pageId = invalidPageId
 · rw [if_pos invalid] at done
   cases done
   exact .refused (.absent (.inl ⟨isDirty, rfl⟩) (invalid ▸ frames.invalid_unmapped))
 · rw [if_neg invalid] at done
   cases found : self.pageTable pageId with
   | none =>
    rw [found] at done
    cases done
    exact .refused (.absent (.inl ⟨isDirty, rfl⟩) found)
   | some frameId =>
    rw [found] at done
    dsimp only at done
    cases counted : (self.pages frameId).pinCount with
    | zero =>
     rw [if_pos counted] at done
     cases done
     exact .notPinned found counted
    | succ pinCount =>
     rw [if_neg (by omega), counted, Nat.add_sub_cancel] at done
     by_cases last : pinCount = 0
     · rw [if_pos last] at done
       obtain ⟨replacer, set, same⟩ := map_eq_some_iff.mp done
       cases same
       exact .unpinned found counted (by rw [if_pos last]; exact set)
     · rw [if_neg last] at done
       cases done
       exact .unpinned found counted (by rw [if_neg last])

theorem flushPage_effect (pageId : PageId) :
 Effect R self (.flushPage pageId) (.flag (self.flushPage pageId).2)
  (self.flushPage pageId).1 := by
 unfold flushPage
 by_cases invalid : pageId = invalidPageId
 · rw [if_pos invalid]
   exact .refused (.absent (.inr (.inl rfl)) (invalid ▸ frames.invalid_unmapped))
 · rw [if_neg invalid]
   cases found : self.pageTable pageId with
   | none => exact .refused (.absent (.inr (.inl rfl)) found)
   | some frameId => exact .flushed found

theorem deletePage_effect {answer : Bool} (done : self.deletePage R pageId = some (new, answer)) :
 Effect R self (.deletePage pageId) (.flag answer) new := by
 unfold deletePage at done
 by_cases invalid : pageId = invalidPageId
 · rw [if_pos invalid] at done
   cases done
   exact .refused (.absent (.inr (.inr rfl)) (invalid ▸ frames.invalid_unmapped))
 · rw [if_neg invalid] at done
   cases found : self.pageTable pageId with
   | none =>
    rw [found] at done
    cases done
    exact .refused (.absent (.inr (.inr rfl)) found)
   | some frameId =>
    rw [found] at done
    dsimp only at done
    by_cases pinned : (self.pages frameId).pinCount > 0
    · rw [if_pos pinned] at done
      cases done
      exact .refused (.pinned found (by omega))
    · rw [if_neg pinned] at done
      obtain ⟨replacer, removed, same⟩ := map_eq_some_iff.mp done
      cases same
      exact .deleted found (by omega) removed

theorem call_effect (victims : VictimsMapped R self) {event : Call} (fresh : Fresh self event)
 {answer : Answer} (done : self.call R event = some (new, answer)) :
 Effect R self event answer new := by
 cases event with
 | newPage allocated =>
  obtain ⟨⟨result, pointer⟩, taken, same⟩ := map_eq_some_iff.mp done
  cases same
  exact newPage_effect frames victims fresh.1 fresh.2 taken
 | fetchPage pageId =>
  obtain ⟨⟨result, pointer⟩, taken, same⟩ := map_eq_some_iff.mp done
  cases same
  exact fetchPage_effect frames victims taken
 | unpinPage pageId isDirty =>
  obtain ⟨⟨result, flag⟩, taken, same⟩ := map_eq_some_iff.mp done
  cases same
  exact unpinPage_effect frames taken
 | flushPage pageId =>
  cases done
  exact flushPage_effect frames pageId
 | deletePage pageId =>
  obtain ⟨⟨result, flag⟩, taken, same⟩ := map_eq_some_iff.mp done
  cases same
  exact deletePage_effect frames taken

/-! ### The accounting of one call -/

omit [Zero Data] in
theorem Frames.setPage (mapped : self.pageTable pageId = some frameId) {page : Page Data}
 (same : page.pageId = (self.pages frameId).pageId) (replacer : σ) (disk : PageId → Data) :
 Frames { self.setPage frameId page with replacer := replacer, disk := disk } where
 free_nodup := frames.free_nodup
 free_lt := frames.free_lt
 free_empty := by
  intro other member
  have different : other ≠ frameId :=
   fun equal => (frames.mapped pageId frameId mapped).2.1 (equal ▸ member)
  change (update self.pages frameId page other).pageId = _ ∧
   (update self.pages frameId page other).isDirty = _
  rw [update_of_ne different]
  exact frames.free_empty other member
 mapped := by
  intro otherPage other found
  have carried : (update self.pages frameId page other).pageId =
   (self.pages other).pageId := by
   rw [update_apply]
   split
   · rename_i equal
     rw [same, equal]
   · rfl
  obtain ⟨below, notFree, carries, valid⟩ := frames.mapped otherPage other found
  exact ⟨below, notFree, carried.trans carries, valid⟩
 covered := frames.covered

theorem Frames.delete (mapped : self.pageTable pageId = some frameId) (replacer : σ) :
 Frames { self.setPage frameId emptyPage with
  pageTable := update self.pageTable pageId none
  freeList := self.freeList ++ [frameId]
  replacer := replacer } := by
 obtain ⟨below, notFree, -⟩ := frames.mapped pageId frameId mapped
 refine ⟨?_, ?_, ?_, ?_, ?_⟩
 · apply List.Nodup.append frames.free_nodup (nodup_singleton frameId)
   simp_all
 · intro other member
   cases mem_append.mp member with
   | inl old => exact frames.free_lt other old
   | inr single => exact mem_singleton.mp single ▸ below
 · intro other member
   change (update self.pages frameId emptyPage other).pageId = _ ∧
    (update self.pages frameId emptyPage other).isDirty = _
   by_cases same : other = frameId
   · rw [same, update_self]
     exact ⟨rfl, rfl⟩
   · rw [update_of_ne same]
     cases mem_append.mp member with
     | inl old => exact frames.free_empty other old
     | inr single => simp_all
 · intro otherPage other found
   dsimp only at found
   by_cases same : otherPage = pageId
   · simp_all
   · rw [update_of_ne same] at found
     have different : other ≠ frameId :=
      fun equal => same (frames.injective (equal ▸ found) mapped)
     obtain ⟨otherBelow, otherNotFree, carries⟩ := frames.mapped otherPage other found
     refine ⟨otherBelow, ?_, ?_⟩
     · intro member
       cases mem_append.mp member with
       | inl old => exact otherNotFree old
       | inr single => exact different (mem_singleton.mp single)
     · change (update self.pages frameId emptyPage other).pageId = _ ∧ _
       simp_all
 · intro other otherBelow
   by_cases same : other = frameId
   · simp_all
   · cases frames.covered other otherBelow with
     | inl free => exact .inl (mem_append_left _ free)
     | inr found =>
      obtain ⟨otherPage, found⟩ := found
      refine .inr ⟨otherPage, ?_⟩
      grind

end MyNotes.Cmu15445.BufferPoolManager
