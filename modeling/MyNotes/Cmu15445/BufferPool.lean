/-
The buffer pool manager of project 1.

The replacer is a parameter, so that the frame accounting can be stated for the
LRU-K replacer and the transparency of the pool for every replacer.  A request to
the disk scheduler is complete when its future is, so the disk is a function from
page ids to what was written last.  A throw is `none`, a pointer is a frame, and a
null pointer is no frame.
-/

import MyNotes.Cmu15445.LruKReplacer
import Mathlib.Algebra.Group.Defs

namespace MyNotes.Cmu15445

open Function

abbrev PageId := ℤ

def invalidPageId : PageId := -1

structure Replacer (σ : Type*) where
 recordAccess : σ → FrameId → Option σ
 setEvictable : σ → FrameId → Bool → Option σ
 evict : σ → Option (FrameId × σ)
 remove : σ → FrameId → Option σ

def LRUKReplacer.replacer : Replacer LRUKReplacer :=
 { recordAccess := LRUKReplacer.recordAccess
   setEvictable := LRUKReplacer.setEvictable
   evict := LRUKReplacer.evict
   remove := LRUKReplacer.remove }

structure Page (Data : Type*) where
 data : Data
 pageId : PageId
 pinCount : ℕ
 isDirty : Bool

structure BufferPoolManager (σ Data : Type*) where
 poolSize : ℕ
 pages : FrameId → Page Data
 pageTable : PageId → Option FrameId
 freeList : List FrameId
 replacer : σ
 disk : PageId → Data

namespace BufferPoolManager

variable {σ Data : Type*}

def emptyPage [Zero Data] : Page Data :=
 { data := 0
   pageId := invalidPageId
   pinCount := 0
   isDirty := false }

def new [Zero Data] (poolSize : ℕ) (replacer : σ) : BufferPoolManager σ Data :=
 { poolSize := poolSize
   pages := fun _ => emptyPage
   pageTable := fun _ => none
   freeList := List.range poolSize
   replacer := replacer
   disk := fun _ => 0 }

def setPage (self : BufferPoolManager σ Data) (frameId : FrameId) (page : Page Data) :
 BufferPoolManager σ Data :=
 { self with pages := update self.pages frameId page }

/-- `page_table_.emplace`: a page that is mapped keeps its frame. -/
def emplace (table : PageId → Option FrameId) (pageId : PageId) (frameId : FrameId) :
 PageId → Option FrameId :=
 match table pageId with
 | some _ => table
 | none => update table pageId (some frameId)

/-- A frame for a new page: the front of the free list, else a victim. -/
def pickFrame (R : Replacer σ) (self : BufferPoolManager σ Data) :
 Option (FrameId × BufferPoolManager σ Data) :=
 match self.freeList with
 | frameId :: rest => some (frameId, { self with freeList := rest })
 | [] => (R.evict self.replacer).map fun victim => (victim.1, { self with replacer := victim.2 })

/-- A dirty page is written to the disk before its frame is reused. -/
def writeBack (self : BufferPoolManager σ Data) (frameId : FrameId) : BufferPoolManager σ Data :=
 let page := self.pages frameId
 if page.isDirty then
  { self.setPage frameId { page with isDirty := false } with
   disk := update self.disk page.pageId page.data }
 else self

/-- `RecordAccess` and `SetEvictable(frame_id, false)`. -/
def touch (R : Replacer σ) (self : BufferPoolManager σ Data) (frameId : FrameId) :
 Option (BufferPoolManager σ Data) :=
 (R.recordAccess self.replacer frameId).bind fun replacer =>
  (R.setEvictable replacer frameId false).map fun replacer => { self with replacer := replacer }

/-- The part of `FetchPage` and `NewPage` that gives a frame to a page. -/
def adopt [Zero Data] (R : Replacer σ) (self : BufferPoolManager σ Data) (frameId : FrameId)
 (pageId : PageId) : Option (BufferPoolManager σ Data) :=
 let self := self.writeBack frameId
 let page := self.pages frameId
 let self := { self with
  pageTable := emplace (update self.pageTable page.pageId none) pageId frameId }
 touch R (self.setPage frameId { page with pageId := pageId, pinCount := 1, data := 0 }) frameId

def fetchPage [Zero Data] (R : Replacer σ) (self : BufferPoolManager σ Data)
 (pageId : PageId) : Option (BufferPoolManager σ Data × Option FrameId) :=
 if pageId = invalidPageId then some (self, none)
 else
  match self.pageTable pageId with
  | some frameId =>
   (self.touch R frameId).map fun self =>
    let page := self.pages frameId
    (self.setPage frameId { page with pinCount := page.pinCount + 1 }, some frameId)
  | none =>
   match self.pickFrame R with
   | none => some (self, none)
   | some (frameId, self) =>
    (self.adopt R frameId pageId).map fun self =>
     let page := self.pages frameId
     (self.setPage frameId { page with data := self.disk page.pageId }, some frameId)

/-- `allocated` is what `AllocatePage` returns if it is called. -/
def newPage [Zero Data] (R : Replacer σ) (self : BufferPoolManager σ Data)
 (allocated : PageId) : Option (BufferPoolManager σ Data × Option FrameId) :=
 match self.pickFrame R with
 | none => some (self, none)
 | some (frameId, self) =>
  (self.adopt R frameId allocated).map fun self => (self, some frameId)

def unpinPage (R : Replacer σ) (self : BufferPoolManager σ Data) (pageId : PageId)
 (isDirty : Bool) : Option (BufferPoolManager σ Data × Bool) :=
 if pageId = invalidPageId then some (self, false)
 else
  match self.pageTable pageId with
  | none => some (self, false)
  | some frameId =>
   let page := self.pages frameId
   let page := { page with isDirty := isDirty || page.isDirty }
   if page.pinCount = 0 then some (self.setPage frameId page, false)
   else
    let self := self.setPage frameId { page with pinCount := page.pinCount - 1 }
    if page.pinCount - 1 = 0 then
     (R.setEvictable self.replacer frameId true).map fun replacer =>
      ({ self with replacer := replacer }, true)
    else some (self, true)

def flushPage (self : BufferPoolManager σ Data) (pageId : PageId) :
 BufferPoolManager σ Data × Bool :=
 if pageId = invalidPageId then (self, false)
 else
  match self.pageTable pageId with
  | none => (self, false)
  | some frameId =>
   let page := self.pages frameId
   ({ self.setPage frameId { page with isDirty := false } with
    disk := update self.disk page.pageId page.data }, true)

def deletePage [Zero Data] (R : Replacer σ) (self : BufferPoolManager σ Data)
 (pageId : PageId) : Option (BufferPoolManager σ Data × Bool) :=
 if pageId = invalidPageId then some (self, true)
 else
  match self.pageTable pageId with
  | none => some (self, true)
  | some frameId =>
   if (self.pages frameId).pinCount > 0 then some (self, false)
   else
    let self := { self with
     pageTable := update self.pageTable pageId none
     freeList := self.freeList ++ [frameId] }
    (R.remove self.replacer frameId).map fun replacer =>
     ({ self.setPage frameId emptyPage with replacer := replacer }, true)

/-! ### Calls -/

inductive Call where
 | newPage (allocated : PageId)
 | fetchPage (pageId : PageId)
 | unpinPage (pageId : PageId) (isDirty : Bool)
 | flushPage (pageId : PageId)
 | deletePage (pageId : PageId)

inductive Answer where
 | pointer (frame : Option FrameId)
 | flag (success : Bool)

def call [Zero Data] (R : Replacer σ) (self : BufferPoolManager σ Data) :
 Call → Option (BufferPoolManager σ Data × Answer)
 | .newPage allocated =>
  (self.newPage R allocated).map fun result => (result.1, .pointer result.2)
 | .fetchPage pageId =>
  (self.fetchPage R pageId).map fun result => (result.1, .pointer result.2)
 | .unpinPage pageId isDirty =>
  (self.unpinPage R pageId isDirty).map fun result => (result.1, .flag result.2)
 | .flushPage pageId => some ((self.flushPage pageId).1, .flag (self.flushPage pageId).2)
 | .deletePage pageId =>
  (self.deletePage R pageId).map fun result => (result.1, .flag result.2)

def step [Zero Data] (R : Replacer σ) (self : BufferPoolManager σ Data) (event : Call) :
 Option (BufferPoolManager σ Data) :=
 (self.call R event).map Prod.fst

end BufferPoolManager

end MyNotes.Cmu15445
