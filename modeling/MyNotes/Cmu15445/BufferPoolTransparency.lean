/-
The buffer pool looks like a flat page store.

The bytes last written to a page are in its frame, and if the frame may be reused
they reach the disk first: the frame is dirty, or a client who wrote still has to
unpin it as dirty, or the disk has them already.
-/

import MyNotes.Cmu15445.BufferPoolSession
import Mathlib.Algebra.GroupWithZero.Nat

namespace MyNotes.Cmu15445

open Library.Transition Function List Option LRUKReplacer Session

variable {σ Offset Byte : Type*}

/-- A replacer that gives up only frames that it was told it may evict. -/
structure Obedient (R : Replacer σ) (valid : σ → Prop) (evictable : σ → FrameId → Prop) :
 Prop where
 recordAccess : ∀ before frameId after, valid before →
  R.recordAccess before frameId = some after →
   valid after ∧ ∀ other, evictable after other → other = frameId ∨ evictable before other
 setEvictable : ∀ before frameId flag after, valid before →
  R.setEvictable before frameId flag = some after →
   valid after ∧ ∀ other, evictable after other →
    (other = frameId ∧ flag = true) ∨ (other ≠ frameId ∧ evictable before other)
 evict : ∀ before frameId after, valid before → R.evict before = some (frameId, after) →
  valid after ∧ evictable before frameId ∧
   ∀ other, evictable after other → other ≠ frameId ∧ evictable before other
 remove : ∀ before frameId after, valid before → R.remove before frameId = some after →
  valid after ∧ ∀ other, evictable after other → other ≠ frameId ∧ evictable before other

variable {R : Replacer σ} {valid : σ → Prop} {evictable : σ → FrameId → Prop}

variable {frameId : FrameId}

theorem Obedient.touched (obedient : Obedient R valid evictable) {before after : σ}
 (start : valid before) (touched : BufferPoolManager.Touched R before frameId after) :
 valid after ∧ ∀ other, evictable after other → other ≠ frameId ∧ evictable before other := by
 obtain ⟨recorded, first, second⟩ := touched
 obtain ⟨middle, known⟩ := obedient.recordAccess before frameId recorded start first
 obtain ⟨last, set⟩ := obedient.setEvictable recorded frameId false after middle second
 refine ⟨last, ?_⟩
 intro other may
 cases set other may with
 | inl own => cases own.2
 | inr rest =>
  cases known other rest.2 with
  | inl same => exact absurd same rest.1
  | inr old => exact ⟨rest.1, old⟩

namespace Session

structure Coherent (valid : σ → Prop) (evictable : σ → FrameId → Prop) [Zero Byte]
 (session : Session σ Offset Byte) : Prop where
 frames : session.pool.Frames
 valid : valid session.pool.replacer
 evictable : ∀ frameId, evictable session.pool.replacer frameId →
  ∃ pageId, session.pool.pageTable pageId = some frameId ∧
   (session.pool.pages frameId).pinCount = 0
 held : ∀ handle ∈ session.handles,
  session.pool.pageTable handle.pageId = some handle.frameId
 pins : ∀ pageId frameId, session.pool.pageTable pageId = some frameId →
  (session.pool.pages frameId).pinCount = (holders session.handles pageId).length
 cached : ∀ pageId frameId offset byte, session.pool.pageTable pageId = some frameId →
  session.written pageId offset = some byte →
   (session.pool.pages frameId).data offset = byte ∧
    ((session.pool.pages frameId).isDirty = true ∨
     (∃ handle ∈ holders session.handles pageId, handle.wrote = true) ∨
     session.pool.disk pageId offset = byte)
 stored : ∀ pageId offset byte, session.pool.pageTable pageId = none →
  session.written pageId offset = some byte → session.pool.disk pageId offset = byte
 unused : ∀ pageId, pageId ∉ session.used →
  session.pool.pageTable pageId = none ∧
   ∀ offset byte, session.written pageId offset = some byte → byte = 0

variable [Zero Byte] {self : Session σ Offset Byte}

variable {replacer : σ}

theorem start_coherent (poolSize : ℕ) (start : valid replacer)
 (none : ∀ frameId, ¬ evictable replacer frameId) :
 Coherent valid evictable (Session.start poolSize replacer : Session σ Offset Byte) where
 frames := BufferPoolManager.new_frames poolSize replacer
 valid := start
 evictable := fun frameId may => absurd may (none frameId)
 held := by intro handle impossible; cases impossible
 pins := by intro pageId frameId impossible; cases impossible
 cached := by intro pageId frameId offset byte impossible; cases impossible
 stored := by intro pageId offset byte _ same; cases same; rfl
 unused := by
  intro pageId _
  refine ⟨rfl, ?_⟩
  intro offset byte same
  cases same
  rfl

/-! ### Pins -/

variable {pageId : PageId} {handle : Handle}

theorem mem_holders {handles : List Handle} :
 handle ∈ holders handles pageId ↔ handle ∈ handles ∧ handle.pageId = pageId := by
 unfold holders
 rw [mem_filter, decide_eq_true_iff]

theorem holders_append_self (handles : List Handle) (handle : Handle) :
 holders (handles ++ [handle]) handle.pageId = holders handles handle.pageId ++ [handle] := by
 unfold holders
 rw [filter_append, filter_cons_of_pos (by simp), filter_nil]

theorem holders_append_other (handles : List Handle) (handle : Handle)
 (different : pageId ≠ handle.pageId) :
 holders (handles ++ [handle]) pageId = holders handles pageId := by
 unfold holders
 grind

variable {holder : ℕ}

theorem split_at {handles : List Handle} (found : handles[holder]? = some handle) :
 ∃ before after, handles = before ++ handle :: after ∧
  handles.eraseIdx holder = before ++ after ∧
  ∀ other, handles.set holder other = before ++ other :: after := by
 obtain ⟨below, same⟩ := List.getElem?_eq_some_iff.mp found
 refine ⟨handles.take holder, handles.drop (holder + 1), ?_,
  eraseIdx_eq_take_drop_succ handles holder, ?_⟩
 · rw [← same, ← drop_eq_getElem_cons below, take_append_drop]
 · intro other
   rw [set_eq_take_append_cons_drop, if_pos below]

theorem holders_middle_other {before after : List Handle} (handle : Handle)
 (different : pageId ≠ handle.pageId) :
 holders (before ++ handle :: after) pageId = holders (before ++ after) pageId := by
 unfold holders
 grind

theorem holders_middle_self (before after : List Handle) (handle : Handle) :
 holders (before ++ handle :: after) handle.pageId =
  holders before handle.pageId ++ handle :: holders after handle.pageId := by
 unfold holders
 rw [filter_append, filter_cons_of_pos (by simp)]

/-! ### A call on one mapped page -/

/-- The frame, the pins and the bytes of one page change; all other pages stay. -/
structure PageChange (old new : Session σ Offset Byte) (pageId : PageId) (frameId : FrameId)
 (page : Page (Offset → Byte)) : Prop where
 poolSize : new.pool.poolSize = old.pool.poolSize
 freeList : new.pool.freeList = old.pool.freeList
 pageTable : new.pool.pageTable = old.pool.pageTable
 pages : new.pool.pages = update old.pool.pages frameId page
 carries : page.pageId = (old.pool.pages frameId).pageId
 held : ∀ handle ∈ new.handles,
  (handle.pageId = pageId ∧ handle.frameId = frameId) ∨ handle ∈ old.handles
 holders : ∀ other, other ≠ pageId → holders new.handles other = holders old.handles other
 disk : ∀ other, other ≠ pageId → new.pool.disk other = old.pool.disk other
 written : ∀ other, other ≠ pageId → new.written other = old.written other
 used : ∀ other, other ∉ new.used → other ∉ old.used

theorem Coherent.change {new : Session σ Offset Byte} {page : Page (Offset → Byte)}
 (coherent : Coherent valid evictable self) (mapped : self.pool.pageTable pageId = some frameId)
 (change : PageChange self new pageId frameId page) (allowed : valid new.pool.replacer)
 (flags : ∀ other, evictable new.pool.replacer other →
  (other = frameId ∧ page.pinCount = 0) ∨
   (other ≠ frameId ∧ evictable self.pool.replacer other))
 (pins : page.pinCount = (holders new.handles pageId).length)
 (cached : ∀ offset byte, new.written pageId offset = some byte →
  page.data offset = byte ∧
   (page.isDirty = true ∨
    (∃ handle ∈ holders new.handles pageId, handle.wrote = true) ∨
    new.pool.disk pageId offset = byte)) :
 Coherent valid evictable new := by
 have pages : ∀ other, other ≠ frameId → new.pool.pages other = self.pool.pages other := by
  intro other different
  rw [change.pages, update_of_ne different]
 have own : new.pool.pages frameId = page := by
  rw [change.pages, update_self]
 have apart : ∀ other otherFrame, self.pool.pageTable other = some otherFrame →
  other ≠ pageId → otherFrame ≠ frameId :=
  fun other otherFrame found different same =>
   different (coherent.frames.injective (same ▸ found) mapped)
 refine ⟨?_, allowed, ?_, ?_, ?_, ?_, ?_, ?_⟩
 · have frames := coherent.frames.setPage mapped change.carries new.pool.replacer new.pool.disk
   have same : new.pool = { self.pool.setPage frameId page with
    replacer := new.pool.replacer, disk := new.pool.disk } := by
    cases equal : new.pool
    have poolSize := change.poolSize
    have freeList := change.freeList
    have pageTable := change.pageTable
    have pages := change.pages
    rw [equal] at poolSize freeList pageTable pages
    simp only [BufferPoolManager.setPage, BufferPoolManager.mk.injEq]
    exact ⟨poolSize, pages, pageTable, freeList, trivial, trivial⟩
   rw [same]
   exact frames
 · intro other may
   rw [change.pageTable]
   cases flags other may with
   | inl one =>
    grind
   | inr rest =>
    rw [pages other rest.1]
    exact coherent.evictable other rest.2
 · intro handle member
   rw [change.pageTable]
   cases change.held handle member with
   | inl one => rw [one.1, one.2, mapped]
   | inr old => exact coherent.held handle old
 · intro other otherFrame found
   rw [change.pageTable] at found
   by_cases same : other = pageId
   · simp_all
   · rw [pages otherFrame (apart other otherFrame found same), change.holders other same]
     exact coherent.pins other otherFrame found
 · intro other otherFrame offset byte found promised
   rw [change.pageTable] at found
   by_cases same : other = pageId
   · simp_all
   · rw [change.written other same] at promised
     rw [pages otherFrame (apart other otherFrame found same), change.holders other same,
      change.disk other same]
     exact coherent.cached other otherFrame offset byte found promised
 · intro other offset byte unmapped promised
   rw [change.pageTable] at unmapped
   have different : other ≠ pageId := by
    intro same
    rw [same, mapped] at unmapped
    cases unmapped
   rw [change.written other different] at promised
   rw [change.disk other different]
   exact coherent.stored other offset byte unmapped promised
 · intro other fresh
   have old := coherent.unused other (change.used other fresh)
   rw [change.pageTable]
   refine ⟨old.1, ?_⟩
   have different : other ≠ pageId := by
    intro same
    rw [same, mapped] at old
    cases old.1
   rw [change.written other different]
   exact old.2

theorem Coherent.flag_unless_unpinned (coherent : Coherent valid evictable self) {pinCount : ℕ}
 (same : pinCount = (self.pool.pages frameId).pinCount) (other : FrameId)
 (may : evictable self.pool.replacer other) :
 (other = frameId ∧ pinCount = 0) ∨
  (other ≠ frameId ∧ evictable self.pool.replacer other) := by
 by_cases equal : other = frameId
 · obtain ⟨-, -, zero⟩ := coherent.evictable other may
   simp_all
 · exact .inr ⟨equal, may⟩

theorem Coherent.victimsMapped (obedient : Obedient R valid evictable)
 (coherent : Coherent valid evictable self) :
 BufferPoolManager.VictimsMapped R self.pool := by
 intro frameId replacer evicted
 obtain ⟨-, may, -⟩ := obedient.evict _ _ _ coherent.valid evicted
 obtain ⟨pageId, mapped, -⟩ := coherent.evictable frameId may
 exact ⟨pageId, mapped⟩

theorem Coherent.hit (obedient : Obedient R valid evictable)
 (coherent : Coherent valid evictable self) (mapped : self.pool.pageTable pageId = some frameId)
 (touched : BufferPoolManager.Touched R self.pool.replacer frameId replacer) :
 Coherent valid evictable (self.opened pageId
  ({ self.pool.setPage frameId
   { self.pool.pages frameId with pinCount := (self.pool.pages frameId).pinCount + 1 } with
   replacer := replacer }, some frameId)) := by
 obtain ⟨allowed, flags⟩ := obedient.touched coherent.valid touched
 have holders := holders_append_self self.handles ⟨pageId, frameId, false⟩
 apply coherent.change mapped
 · refine ⟨rfl, rfl, rfl, rfl, rfl, ?_, ?_, fun _ _ => rfl, fun _ _ => rfl, ?_⟩
   · intro handle member
     cases mem_append.mp member with
     | inl old => exact .inr old
     | inr one =>
      simp_all
   · intro other different
     exact holders_append_other self.handles ⟨pageId, frameId, false⟩ different
   · intro other absent old
     exact absent (mem_cons_of_mem _ old)
 · exact allowed
 · intro other may
   exact .inr (flags other may)
 · change _ + 1 = (Session.holders (self.handles ++ [_]) pageId).length
   rw [holders, length_append, coherent.pins pageId frameId mapped]
   rfl
 · intro offset byte promised
   obtain ⟨shown, safe⟩ := coherent.cached pageId frameId offset byte mapped promised
   refine ⟨shown, ?_⟩
   rcases safe with dirty | ⟨handle, member, wrote⟩ | onDisk
   · exact .inl dirty
   · refine .inr (.inl ⟨handle, ?_, wrote⟩)
     change handle ∈ Session.holders (self.handles ++ [_]) pageId
     simp_all
   · exact .inr (.inr onDisk)

variable {rest : List FrameId}

theorem Coherent.picked (obedient : Obedient R valid evictable)
 (coherent : Coherent valid evictable self) {picked : σ}
 (source : BufferPoolManager.Picked R self.pool frameId rest picked) :
 valid picked ∧
  (∀ other, evictable picked other → evictable self.pool.replacer other) ∧
  ∀ pageId, self.pool.pageTable pageId = some frameId →
   holders self.handles pageId = [] := by
 cases source with
 | inl front =>
  obtain ⟨front, same⟩ := front
  rw [same]
  refine ⟨coherent.valid, fun _ may => may, ?_⟩
  intro pageId mapped
  have notFree := (coherent.frames.mapped pageId frameId mapped).2.1
  simp_all
 | inr victim =>
  obtain ⟨-, -, evicted⟩ := victim
  obtain ⟨allowed, may, flags⟩ := obedient.evict _ _ _ coherent.valid evicted
  refine ⟨allowed, fun other after => (flags other after).2, ?_⟩
  intro pageId mapped
  obtain ⟨owner, ownerMapped, zero⟩ := coherent.evictable frameId may
  rw [coherent.frames.injective mapped ownerMapped]
  rw [coherent.pins owner frameId ownerMapped] at zero
  exact length_eq_zero_iff.mp zero

variable {new : BufferPoolManager σ (Offset → Byte)} {data : Offset → Byte} {other : PageId}

section

omit [Zero Byte]

theorem adopted_disk (frames : self.pool.Frames) (available : self.pool.Available frameId rest)
 (adopted : BufferPoolManager.Adopted self.pool new frameId rest pageId data)
 (stays : self.pool.pageTable other ≠ some frameId) :
 new.disk other = self.pool.disk other := by
 rw [adopted.disk]
 split
 · rename_i dirty
   rw [update_of_ne]
   intro same
   rcases available.source with front | ⟨-, owner, mapped⟩
   · have clean := (frames.free_empty frameId (by rw [front]; exact mem_cons_self)).2
     rw [clean] at dirty
     cases dirty
   · rw [(frames.mapped owner frameId mapped).2.2.1] at same
     exact stays (same ▸ mapped)
 · rfl

theorem adopted_cases (adopted : BufferPoolManager.Adopted self.pool new frameId rest pageId data)
 {otherFrame : FrameId} (found : new.pageTable other = some otherFrame) :
 (other = pageId ∧ otherFrame = frameId) ∨
  (other ≠ pageId ∧ otherFrame ≠ frameId ∧ self.pool.pageTable other = some otherFrame) := by
 rw [adopted.pageTable] at found
 by_cases same : other = pageId
 · simp_all
 · rw [if_neg same] at found
   split at found
   · cases found
   · simp_all

theorem not_held (nobody : holders self.handles pageId = [])
 (member : handle ∈ self.handles) : handle.pageId ≠ pageId := by
 intro same
 have holds := mem_holders.mpr ⟨member, same⟩
 rw [nobody] at holds
 cases holds

end

theorem Coherent.nobody (coherent : Coherent valid evictable self)
 (unmapped : self.pool.pageTable pageId = none) :
 holders self.handles pageId = [] := by
 apply eq_nil_iff_forall_not_mem.mpr
 intro handle member
 obtain ⟨member, same⟩ := mem_holders.mp member
 have mapped := coherent.held handle member
 rw [same, unmapped] at mapped
 cases mapped

theorem Coherent.saved (coherent : Coherent valid evictable self)
 (adopted : BufferPoolManager.Adopted self.pool new frameId rest pageId data)
 (victim : self.pool.pageTable other = some frameId)
 (idle : holders self.handles other = []) {offset : Offset} {byte : Byte}
 (promised : self.written other offset = some byte) : new.disk other offset = byte := by
 obtain ⟨shown, safe⟩ := coherent.cached other frameId offset byte victim promised
 have carries := (coherent.frames.mapped other frameId victim).2.2.1
 rw [adopted.disk]
 cases dirty : (self.pool.pages frameId).isDirty with
 | true =>
  simp_all
 | false =>
  rw [if_neg Bool.false_ne_true]
  rcases safe with impossible | ⟨handle, member, -⟩ | onDisk
  · simp_all
  · rw [idle] at member
    cases member
  · exact onDisk

theorem Coherent.loaded (obedient : Obedient R valid evictable)
 (coherent : Coherent valid evictable self) {picked : σ} (real : pageId ≠ invalidPageId)
 (unmapped : self.pool.pageTable pageId = none)
 (source : BufferPoolManager.Picked R self.pool frameId rest picked)
 (adopted : BufferPoolManager.Adopted self.pool new frameId rest pageId data)
 (touched : BufferPoolManager.Touched R picked frameId new.replacer)
 (read : ∀ offset byte, self.written pageId offset = some byte → data offset = byte) :
 Coherent valid evictable (self.opened pageId (new, some frameId)) := by
 have available := source.available coherent.frames (coherent.victimsMapped obedient)
 obtain ⟨allowedPicked, flagsPicked, idle⟩ := coherent.picked obedient source
 obtain ⟨allowed, flags⟩ := obedient.touched allowedPicked touched
 have disk : ∀ {other}, self.pool.pageTable other ≠ some frameId →
  new.disk other = self.pool.disk other :=
  fun stays => adopted_disk coherent.frames available adopted stays
 have notMapped : self.pool.pageTable pageId ≠ some frameId := by
  rw [unmapped]
  nofun
 have others : ∀ other, other ≠ pageId →
  holders (self.handles ++ [⟨pageId, frameId, false⟩]) other =
   holders self.handles other :=
  fun other different => holders_append_other self.handles ⟨pageId, frameId, false⟩ different
 refine ⟨adopted.frames coherent.frames available real unmapped, allowed, ?_, ?_, ?_, ?_, ?_, ?_⟩
 · intro other may
   change ∃ otherPage, new.pageTable otherPage = some other ∧ (new.pages other).pinCount = 0
   obtain ⟨different, still⟩ := flags other may
   obtain ⟨otherPage, mapped, zero⟩ := coherent.evictable other (flagsPicked other still)
   refine ⟨otherPage, ?_, ?_⟩
   · rw [adopted.pageTable, if_neg, if_neg, mapped]
     · simp_all
     · grind
   · rw [adopted.pages, if_neg different]
     exact zero
 · intro handle member
   change new.pageTable handle.pageId = some handle.frameId
   rw [adopted.pageTable]
   cases mem_append.mp member with
   | inl old =>
    have mapped := coherent.held handle old
    rw [if_neg (not_held (coherent.nobody unmapped) old), if_neg, mapped]
    exact fun victim => not_held (idle handle.pageId victim) old rfl
   | inr one =>
    simp_all
 · intro other otherFrame found
   change (new.pages otherFrame).pinCount =
    (holders (self.handles ++ [⟨pageId, frameId, false⟩]) other).length
   rw [adopted.pages]
   rcases adopted_cases adopted found with ⟨same, equal⟩ | ⟨different, apart, mapped⟩
   · rw [if_pos equal, same,
      holders_append_self self.handles ⟨pageId, frameId, false⟩, coherent.nobody unmapped]
     rfl
   · rw [if_neg apart, others other different]
     exact coherent.pins other otherFrame mapped
 · intro other otherFrame offset byte found promised
   change (new.pages otherFrame).data offset = byte ∧
    ((new.pages otherFrame).isDirty = true ∨
     (∃ handle ∈ holders (self.handles ++ [⟨pageId, frameId, false⟩]) other,
      handle.wrote = true) ∨ new.disk other offset = byte)
   rcases adopted_cases adopted found with ⟨same, equal⟩ | ⟨different, apart, mapped⟩
   · rw [same] at promised
     rw [adopted.pages, if_pos equal, same, disk notMapped]
     exact ⟨read offset byte promised,
      .inr (.inr (coherent.stored pageId offset byte unmapped promised))⟩
   · have stays : self.pool.pageTable other ≠ some frameId := by
      rw [mapped]
      exact fun equal => apart (Option.some.inj equal)
     rw [adopted.pages, if_neg apart, others other different, disk stays]
     exact coherent.cached other otherFrame offset byte mapped promised
 · intro other offset byte found promised
   change new.disk other offset = byte
   change new.pageTable other = none at found
   rw [adopted.pageTable] at found
   have different : other ≠ pageId := by
    intro same
    rw [if_pos same] at found
    cases found
   rw [if_neg different] at found
   by_cases victim : self.pool.pageTable other = some frameId
   · exact coherent.saved adopted victim (idle other victim) promised
   · rw [if_neg victim] at found
     rw [disk victim]
     exact coherent.stored other offset byte found promised
 · intro other fresh
   change new.pageTable other = none ∧ _
   have different : other ≠ pageId := fun same => fresh (same ▸ mem_cons_self)
   have old := coherent.unused other fun member => fresh (mem_cons_of_mem _ member)
   refine ⟨?_, old.2⟩
   rw [adopted.pageTable, if_neg different, old.1, ite_self]

variable {isDirty : Bool}

theorem Coherent.unpinned (obedient : Obedient R valid evictable)
 (coherent : Coherent valid evictable self) (found : self.handles[holder]? = some handle)
 (kept : handle.wrote = true → isDirty = true) {pinCount : ℕ}
 (mapped : self.pool.pageTable handle.pageId = some frameId)
 (counted : (self.pool.pages frameId).pinCount = pinCount + 1)
 (released : if pinCount = 0 then
  R.setEvictable self.pool.replacer frameId true = some replacer
  else replacer = self.pool.replacer) :
 Coherent valid evictable
  { self with
   pool := { self.pool.setPage frameId
    { self.pool.pages frameId with
     pinCount := pinCount
     isDirty := isDirty || (self.pool.pages frameId).isDirty } with
    replacer := replacer }
   handles := self.handles.eraseIdx holder } := by
 obtain ⟨before, after, handles, erased, -⟩ := split_at found
 have flags : valid replacer ∧ ∀ other, evictable replacer other →
  (other = frameId ∧ pinCount = 0) ∨
   (other ≠ frameId ∧ evictable self.pool.replacer other) := by
  by_cases last : pinCount = 0
  · rw [if_pos last] at released
    obtain ⟨allowed, set⟩ := obedient.setEvictable _ _ _ _ coherent.valid released
    refine ⟨allowed, ?_⟩
    intro other may
    cases set other may with
    | inl one => exact .inl ⟨one.1, last⟩
    | inr rest => exact .inr rest
  · rw [if_neg last] at released
    rw [released]
    refine ⟨coherent.valid, ?_⟩
    intro other may
    refine .inr ⟨?_, may⟩
    intro same
    obtain ⟨pageId, owner, zero⟩ := coherent.evictable other may
    rw [same, counted] at zero
    cases zero
 have count := coherent.pins handle.pageId frameId mapped
 have own := holders_middle_self before after handle
 rw [counted, handles, own] at count
 apply coherent.change mapped
 · refine ⟨rfl, rfl, rfl, rfl, rfl, ?_, ?_, fun _ _ => rfl, fun _ _ => rfl, fun _ absent => absent⟩
   · grind
   · intro other different
     rw [erased, handles, holders_middle_other handle different]
 · exact flags.1
 · exact flags.2
 · rw [erased]
   unfold holders at count ⊢
   grind
 · intro offset byte promised
   obtain ⟨shown, safe⟩ := coherent.cached handle.pageId frameId offset byte mapped promised
   refine ⟨shown, ?_⟩
   rcases safe with dirty | ⟨writer, member, wrote⟩ | onDisk
   · simp_all
   · rw [handles, own] at member
     -- The writer is the one who unpins now, or it still holds its pin.
     rcases mem_append.mp member with early | late
     · refine .inr (.inl ⟨writer, ?_, wrote⟩)
       rw [erased, mem_holders]
       obtain ⟨early, same⟩ := mem_holders.mp early
       exact ⟨mem_append_left _ early, same⟩
     · cases mem_cons.mp late with
       | inl self_unpins =>
        simp_all
       | inr late =>
        refine .inr (.inl ⟨writer, ?_, wrote⟩)
        rw [erased, mem_holders]
        obtain ⟨late, same⟩ := mem_holders.mp late
        exact ⟨mem_append_right _ late, same⟩
   · exact .inr (.inr onDisk)

section

variable (coherent : Coherent valid evictable self)
include coherent

theorem Coherent.notPinned (mapped : self.pool.pageTable pageId = some frameId) (isDirty : Bool) :
 Coherent valid evictable
  { self with
   pool := self.pool.setPage frameId
    { self.pool.pages frameId with
     isDirty := isDirty || (self.pool.pages frameId).isDirty } } := by
 apply coherent.change mapped
 · exact ⟨rfl, rfl, rfl, rfl, rfl, fun _ member => .inr member, fun _ _ => rfl,
    fun _ _ => rfl, fun _ _ => rfl, fun _ absent => absent⟩
 · exact coherent.valid
 · exact coherent.flag_unless_unpinned rfl
 · exact coherent.pins pageId frameId mapped
 · intro offset byte promised
   obtain ⟨shown, safe⟩ := coherent.cached pageId frameId offset byte mapped promised
   refine ⟨shown, ?_⟩
   cases safe with
   | inl dirty =>
    simp_all
   | inr rest => exact .inr rest

theorem Coherent.flushed (mapped : self.pool.pageTable pageId = some frameId) :
 Coherent valid evictable
  { self with
   pool := { self.pool.setPage frameId
    { self.pool.pages frameId with isDirty := false } with
    disk := update self.pool.disk (self.pool.pages frameId).pageId
     (self.pool.pages frameId).data } } := by
 have carries := (coherent.frames.mapped pageId frameId mapped).2.2.1
 apply coherent.change mapped
 · refine ⟨rfl, rfl, rfl, rfl, rfl, fun _ member => .inr member, fun _ _ => rfl, ?_,
    fun _ _ => rfl, fun _ absent => absent⟩
   simp_all
 · exact coherent.valid
 · exact coherent.flag_unless_unpinned rfl
 · exact coherent.pins pageId frameId mapped
 · intro offset byte promised
   have shown := (coherent.cached pageId frameId offset byte mapped promised).1
   simp_all

theorem Coherent.write [DecidableEq Offset] (found : self.handles[holder]? = some handle)
 (offset : Offset) (byte : Byte) :
 Coherent valid evictable (self.writeByte holder handle offset byte) := by
 obtain ⟨before, after, handles, -, set⟩ := split_at found
 have member : handle ∈ self.handles := mem_of_getElem? found
 have mapped := coherent.held handle member
 have own := holders_middle_self before after { handle with wrote := true }
 have old := holders_middle_self before after handle
 apply coherent.change mapped
 · refine ⟨rfl, rfl, rfl, rfl, rfl, ?_, ?_, fun _ _ => rfl, ?_, fun _ absent => absent⟩
   · intro other present
     cases mem_or_eq_of_mem_set present with
     | inl kept => exact .inr kept
     | inr same =>
      rw [same]
      exact .inl ⟨rfl, rfl⟩
   · intro other different
     change holders (self.handles.set holder _) other = _
     rw [set, handles, holders_middle_other { handle with wrote := true } different,
      holders_middle_other handle different]
   · intro other different
     exact update_of_ne different _ _
 · exact coherent.valid
 · exact coherent.flag_unless_unpinned rfl
 · change (self.pool.pages handle.frameId).pinCount =
    (holders (self.handles.set holder _) handle.pageId).length
   rw [coherent.pins handle.pageId handle.frameId mapped, set, own, handles, old,
    length_append, length_append, length_cons, length_cons]
 · intro target value promised
   have writer : ∃ other ∈ holders
    (self.handles.set holder { handle with wrote := true }) handle.pageId,
    other.wrote = true := by
    refine ⟨{ handle with wrote := true }, ?_, rfl⟩
    rw [set, own]
    exact mem_append_right _ mem_cons_self
   refine ⟨?_, .inr (.inl writer)⟩
   change update self.written handle.pageId _ handle.pageId target = _ at promised
   change update (self.pool.pages handle.frameId).data offset byte target = value
   rw [update_self] at promised
   by_cases same : target = offset
   · simp_all
   · rw [update_of_ne same] at promised ⊢
     exact (coherent.cached handle.pageId handle.frameId target value mapped promised).1

theorem Coherent.forget (pageId : PageId) :
 Coherent valid evictable
  { self with written := update self.written pageId (fun _ => none) } := by
 have promise : ∀ other offset byte,
  update self.written pageId (fun _ => none) other offset = some byte →
   self.written other offset = some byte := by
  intro other offset byte promised
  by_cases same : other = pageId
  · simp_all
  · rwa [update_of_ne same] at promised
 refine ⟨coherent.frames, coherent.valid, coherent.evictable, coherent.held, coherent.pins,
  ?_, ?_, ?_⟩
 · intro other frameId offset byte mapped promised
   exact coherent.cached other frameId offset byte mapped (promise other offset byte promised)
 · intro other offset byte unmapped promised
   exact coherent.stored other offset byte unmapped (promise other offset byte promised)
 · intro other fresh
   obtain ⟨unmapped, zero⟩ := coherent.unused other fresh
   grind

end

theorem Coherent.deleted (obedient : Obedient R valid evictable)
 (coherent : Coherent valid evictable self) (mapped : self.pool.pageTable pageId = some frameId)
 (zero : (self.pool.pages frameId).pinCount = 0)
 (removed : R.remove self.pool.replacer frameId = some replacer)
 (silent : ∀ offset, self.written pageId offset = none) :
 Coherent valid evictable
  { self with
   pool := { self.pool.setPage frameId BufferPoolManager.emptyPage with
    pageTable := update self.pool.pageTable pageId none
    freeList := self.pool.freeList ++ [frameId]
    replacer := replacer } } := by
 obtain ⟨allowed, flags⟩ := obedient.remove _ _ _ coherent.valid removed
 have after : ∀ other otherFrame,
  update self.pool.pageTable pageId none other = some otherFrame →
   self.pool.pageTable other = some otherFrame ∧
    update self.pool.pages frameId BufferPoolManager.emptyPage otherFrame =
     self.pool.pages otherFrame := by
  intro other otherFrame found
  by_cases same : other = pageId
  · simp_all
  · rw [update_of_ne same] at found
    refine ⟨found, update_of_ne ?_ _ _⟩
    exact fun equal => same (coherent.frames.injective (equal ▸ found) mapped)
 refine ⟨coherent.frames.delete mapped replacer, allowed, ?_, ?_, ?_, ?_, ?_, ?_⟩
 · intro other may
   obtain ⟨different, still⟩ := flags other may
   obtain ⟨otherPage, found, free⟩ := coherent.evictable other still
   refine ⟨otherPage, ?_, ?_⟩
   · grind
   · change (update self.pool.pages frameId _ other).pinCount = 0
     rw [update_of_ne different]
     exact free
 · intro handle member
   have found := coherent.held handle member
   dsimp only
   rw [update_of_ne, found]
   -- A holder would be a pin of the deleted page.
   have count := coherent.pins pageId frameId mapped
   rw [zero] at count
   exact not_held (length_eq_zero_iff.mp count.symm) member
 · intro other otherFrame found
   obtain ⟨old, same⟩ := after other otherFrame found
   change (update self.pool.pages frameId _ otherFrame).pinCount = _
   rw [same]
   exact coherent.pins other otherFrame old
 · intro other otherFrame offset byte found promised
   obtain ⟨old, same⟩ := after other otherFrame found
   change (update self.pool.pages frameId _ otherFrame).data offset = byte ∧
    ((update self.pool.pages frameId _ otherFrame).isDirty = true ∨ _)
   rw [same]
   exact coherent.cached other otherFrame offset byte old promised
 · intro other offset byte found promised
   dsimp only at found promised
   by_cases same : other = pageId
   · simp_all
   · rw [update_of_ne same] at found
     exact coherent.stored other offset byte found promised
 · intro other fresh
   obtain ⟨unmapped, zeros⟩ := coherent.unused other fresh
   grind

/-! ### Every run -/

open BufferPoolManager in
theorem Coherent.opens (obedient : Obedient R valid evictable)
 (coherent : Coherent valid evictable self) {event : BufferPoolManager.Call}
 {answer : Option FrameId}
 (request : event = .fetchPage pageId ∨ (event = .newPage pageId ∧ pageId ∉ self.used))
 (effect : Effect R self.pool event (.pointer answer) new) :
 Coherent valid evictable (self.opened pageId (new, answer)) := by
 cases effect with
 | refused why => cases why <;> exact coherent
 | hit mapped touched =>
  cases request with
  | inl fetch =>
   cases fetch
   exact coherent.hit obedient mapped touched
  | inr create => cases create.1
 | loaded loads real unmapped source adopted touched =>
  cases loads with
  | fetched loadedPage =>
   cases request with
   | inr create => cases create.1
   | inl fetch =>
    cases fetch
    refine coherent.loaded obedient real unmapped source adopted touched ?_
    intro offset byte promised
    have available := source.available coherent.frames (coherent.victimsMapped obedient)
    rw [adopted_disk coherent.frames available adopted (by rw [unmapped]; nofun)]
    exact coherent.stored pageId offset byte unmapped promised
  | created allocated =>
   cases request with
   | inl fetch => cases fetch
   | inr create =>
    obtain ⟨create, fresh⟩ := create
    cases create
    refine coherent.loaded obedient real unmapped source adopted touched ?_
    intro offset byte promised
    exact ((coherent.unused pageId fresh).2 offset byte promised).symm

variable {answer : Bool}

theorem Coherent.unpin (obedient : Obedient R valid evictable)
 (coherent : Coherent valid evictable self) (found : self.handles[holder]? = some handle)
 (kept : handle.wrote = true → isDirty = true)
 (effect : BufferPoolManager.Effect R self.pool (.unpinPage handle.pageId isDirty)
  (.flag answer) new) :
 Coherent valid evictable
  { self with pool := new, handles := self.handles.eraseIdx holder } := by
 have member : handle ∈ self.handles := mem_of_getElem? found
 have held := coherent.held handle member
 cases effect with
 | refused why =>
  -- A page that somebody holds is mapped.
  cases why with
  | absent requested unmapped =>
   rcases requested with ⟨flag, unpin⟩ | flush | delete
   · simp_all
   · cases flush
   · cases delete
 | unpinned mapped counted released =>
  exact coherent.unpinned obedient found kept mapped counted released
 | notPinned mapped zero =>
  have count := coherent.pins handle.pageId _ mapped
  rw [zero] at count
  have empty := length_eq_zero_iff.mp count.symm
  have holds := mem_holders.mpr ⟨member, rfl⟩
  rw [empty] at holds
  cases holds

theorem Coherent.unpinUnheld (coherent : Coherent valid evictable self)
 (nobody : holders self.handles pageId = [])
 (effect : BufferPoolManager.Effect R self.pool (.unpinPage pageId isDirty)
  (.flag answer) new) :
 Coherent valid evictable { self with pool := new } := by
 cases effect with
 | refused _ => exact coherent
 | unpinned mapped counted _ =>
  have count := coherent.pins pageId _ mapped
  rw [nobody, counted] at count
  cases count
 | notPinned mapped _ => exact coherent.notPinned mapped isDirty

theorem Coherent.flush (coherent : Coherent valid evictable self)
 (effect : BufferPoolManager.Effect R self.pool (.flushPage pageId) (.flag answer) new) :
 Coherent valid evictable { self with pool := new } := by
 cases effect with
 | refused _ => exact coherent
 | flushed mapped => exact coherent.flushed mapped

theorem Coherent.delete (obedient : Obedient R valid evictable)
 (coherent : Coherent valid evictable self)
 (effect : BufferPoolManager.Effect R self.pool (.deletePage pageId) (.flag answer) new) :
 Coherent valid evictable
  { self with
   pool := new
   written := if answer then update self.written pageId (fun _ => none)
    else self.written } := by
 cases effect with
 | refused _ =>
  cases answer with
  | true => exact coherent.forget pageId
  | false => exact coherent
 | deleted mapped zero removed =>
  apply (coherent.forget pageId).deleted obedient mapped zero removed
  simp

variable [DecidableEq Offset]

theorem Coherent.step (obedient : Obedient R valid evictable)
 (coherent : Coherent valid evictable self) {action : Action Offset Byte}
 {next : Session σ Offset Byte} (disciplined : self.Disciplined action)
 (taken : self.step R action = some next) : Coherent valid evictable next := by
 have victims := coherent.victimsMapped obedient
 cases action with
 | newPage allocated =>
  obtain ⟨⟨new, answer⟩, done, same⟩ := map_eq_some_iff.mp taken
  cases same
  have unmapped := (coherent.unused allocated disciplined.2).1
  exact coherent.opens obedient (.inr ⟨rfl, disciplined.2⟩)
   (BufferPoolManager.newPage_effect coherent.frames victims disciplined.1 unmapped done)
 | fetchPage pageId =>
  obtain ⟨⟨new, answer⟩, done, same⟩ := map_eq_some_iff.mp taken
  cases same
  exact coherent.opens obedient (.inl rfl)
   (BufferPoolManager.fetchPage_effect coherent.frames victims done)
 | write holder offset byte =>
  obtain ⟨handle, found, same⟩ := map_eq_some_iff.mp taken
  cases same
  exact coherent.write found offset byte
 | unpin holder isDirty =>
  obtain ⟨handle, found, rest⟩ := bind_eq_some_iff.mp taken
  obtain ⟨⟨new, answer⟩, done, same⟩ := map_eq_some_iff.mp rest
  cases same
  exact coherent.unpin obedient found (disciplined handle found)
   (BufferPoolManager.unpinPage_effect coherent.frames done)
 | unpinUnheld pageId isDirty =>
  obtain ⟨⟨new, answer⟩, done, same⟩ := map_eq_some_iff.mp taken
  cases same
  exact coherent.unpinUnheld disciplined
   (BufferPoolManager.unpinPage_effect coherent.frames done)
 | flushPage pageId =>
  cases taken
  have effect : BufferPoolManager.Effect R self.pool _ _ _ :=
   BufferPoolManager.flushPage_effect coherent.frames pageId
  exact coherent.flush effect
 | deletePage pageId =>
  obtain ⟨⟨new, answer⟩, done, same⟩ := map_eq_some_iff.mp taken
  cases same
  exact coherent.delete obedient
   (BufferPoolManager.deletePage_effect coherent.frames done)

/-- Over any replacer that evicts only evictable frames, whatever was evicted in
between, a pointer shows the bytes last written to its page. -/
theorem transparency {poolSize : ℕ} {replacer : σ} (obedient : Obedient R valid evictable)
 (allowed : valid replacer) (none : ∀ frameId, ¬ evictable replacer frameId)
 {actions : List (Action Offset Byte)} {session : Session σ Offset Byte}
 (run : Run (Guarded Disciplined (ofFunction (step R))) (start poolSize replacer) actions
  session) : session.Transparent := by
 have coherent : Coherent valid evictable session := by
  apply run.invariant (start_coherent poolSize allowed none)
  intro before action next coherent taken
  exact coherent.step obedient taken.1 taken.2
 intro handle member offset byte promised
 exact (coherent.cached handle.pageId handle.frameId offset byte
  (coherent.held handle member) promised).1

end Session

/-! ### The LRU-K replacer -/

theorem obedient :
 Obedient replacer (fun self => self.WellFormed ∧ 2 ≤ self.k)
  (fun self frameId => self.status frameId = some true) where
 recordAccess := by
  intro before frameId after start done
  have inRange : frameId ≤ before.replacerSize := by
   by_contra beyond
   change before.recordAccess frameId = some after at done
   rw [recordAccess, if_pos (Nat.lt_of_not_le beyond)] at done
   cases done
  obtain ⟨result, same, evolves⟩ := recordAccess_spec start.1 start.2 inRange
  cases same.symm.trans done
  refine ⟨⟨evolves.wellFormed, evolves.k ▸ start.2⟩, ?_⟩
  intro other may
  by_cases own : other = frameId
  · exact .inl own
  · rw [evolves.status, if_neg own] at may
    exact .inr may
 setEvictable := by
  intro before frameId flag after start done
  have inRange : frameId ≤ before.replacerSize := by
   by_contra beyond
   change before.setEvictable frameId flag = some after at done
   rw [setEvictable, if_pos (Nat.lt_of_not_le beyond)] at done
   cases done
  obtain ⟨result, same, evolves⟩ := setEvictable_spec start.1 inRange flag
  cases same.symm.trans done
  refine ⟨⟨evolves.wellFormed, evolves.k ▸ start.2⟩, ?_⟩
  intro other may
  rw [evolves.status] at may
  by_cases own : other = frameId
  · simp_all
  · simp_all
 evict := by
  intro before frameId after start done
  obtain ⟨evictable, evolves⟩ := evict_spec start.1 done
  refine ⟨⟨evolves.wellFormed, evolves.k ▸ start.2⟩, evictable, ?_⟩
  intro other may
  rw [evolves.status] at may
  split at may
  · cases may
  · simp_all
 remove := by
  intro before frameId after start done
  by_cases evictable : before.status frameId = some true
  · obtain ⟨result, same, evolves⟩ := remove_spec start.1 evictable
    cases same.symm.trans done
    refine ⟨⟨evolves.wellFormed, evolves.k ▸ start.2⟩, ?_⟩
    intro other may
    rw [evolves.status] at may
    split at may
    · cases may
    · simp_all
  · -- A frame that is not tracked is left alone; a pinned one makes it throw.
    cases remove_not_evictable evictable done
    grind

namespace Session

theorem transparency_after_eviction :
 ∃ session : Session LRUKReplacer Unit ℕ,
  Run (Guarded Disciplined (ofFunction (step replacer)))
   (start 1 (new 1 2))
   [.newPage 0, .write 0 () 7, .unpin 0 true, .newPage 1, .unpin 0 false, .fetchPage 0]
   session ∧
  session.handles.length = 1 ∧ session.Transparent := by
 have final : (replay (restrict Disciplined (step replacer))
  (start 1 (new 1 2) : Session LRUKReplacer Unit ℕ)
  [.newPage 0, .write 0 () 7, .unpin 0 true, .newPage 1, .unpin 0 false, .fetchPage 0]).map
  (fun session => session.handles.length) = some 1 := by decide
 obtain ⟨session, replayed, open_one⟩ := map_eq_some_iff.mp final
 have run := Run.of_replay replayed
 exact ⟨session, run, open_one, transparency obedient
  ⟨new_wellFormed 1 2, Nat.le_refl 2⟩ (fun _ impossible => by cases impossible) run⟩

theorem not_transparent {session : Session LRUKReplacer Unit ℕ} {pageId : PageId}
 {written shown : ℕ}
 (visible : (session.handles.head?.map fun handle => (handle.pageId, handle.frameId),
  session.written pageId (), (session.pool.pages frameId).data ()) =
  (some (pageId, frameId), some written, shown)) (different : shown ≠ written) :
 ¬ session.Transparent := by
 rw [Prod.mk.injEq, Prod.mk.injEq] at visible
 obtain ⟨first, last, bytes⟩ := visible
 obtain ⟨handle, front, same⟩ := map_eq_some_iff.mp first
 cases same
 intro transparent
 have agrees := transparent handle (mem_of_head? front) () written last
 exact different (bytes.symm.trans agrees)

/-- Two ways to another page's bytes: an id that was fetched before `AllocatePage`
returned it has two frames, and an unpin that is not the caller's own lets the
frame of a held page be reused. -/
theorem transparency_fails_for_foreign_ids_and_pins :
 (∃ session : Session LRUKReplacer Unit ℕ,
  Run (ofFunction (step replacer)) (start 2 (new 2 2))
   [.fetchPage 0, .newPage 0, .write 1 () 7] session ∧ ¬ session.Transparent) ∧
 ∃ session : Session LRUKReplacer Unit ℕ,
  Run (ofFunction (step replacer)) (start 1 (new 1 2))
   [.newPage 0, .fetchPage 0, .unpin 0 false, .unpinUnheld 0 false, .newPage 1,
    .write 1 () 7] session ∧ ¬ session.Transparent := by
 constructor
 · have final : (replay (step replacer)
    (start 2 (new 2 2) : Session LRUKReplacer Unit ℕ)
    [.fetchPage 0, .newPage 0, .write 1 () 7]).map
    (fun session => (session.handles.head?.map fun handle => (handle.pageId, handle.frameId),
     session.written 0 (), (session.pool.pages 0).data ())) =
    some (some (0, 0), some 7, 0) := by decide
   obtain ⟨session, replayed, visible⟩ := map_eq_some_iff.mp final
   exact ⟨session, Run.of_replay_all replayed, not_transparent visible (by decide)⟩
 · have final : (replay (step replacer)
    (start 1 (new 1 2) : Session LRUKReplacer Unit ℕ)
    [.newPage 0, .fetchPage 0, .unpin 0 false, .unpinUnheld 0 false, .newPage 1,
     .write 1 () 7]).map
    (fun session => (session.handles.head?.map fun handle => (handle.pageId, handle.frameId),
     session.written 0 (), (session.pool.pages 0).data ())) =
    some (some (0, 0), some 0, 7) := by decide
   obtain ⟨session, replayed, visible⟩ := map_eq_some_iff.mp final
   exact ⟨session, Run.of_replay_all replayed, not_transparent visible (by decide)⟩

end Session

end MyNotes.Cmu15445
