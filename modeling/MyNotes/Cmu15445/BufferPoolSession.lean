/-
Clients of the buffer pool, and the bytes they see.

A client holds a pointer from the call that returned it until its own unpin.  Next
to the pool a session keeps the bytes that were last written to every page, which
is the flat store that the pool has to look like.
-/

import MyNotes.Library.Transition
import MyNotes.Cmu15445.BufferPoolFrames
import Mathlib.Algebra.Notation.Pi.Defs

namespace MyNotes.Cmu15445

open Library.Transition Function

/-- A pinned pointer, and whether its holder has written through it. -/
structure Handle where
 pageId : PageId
 frameId : FrameId
 wrote : Bool

/-- `written` has no bytes for a page from its deletion to the next write. -/
structure Session (σ Offset Byte : Type*) where
 pool : BufferPoolManager σ (Offset → Byte)
 handles : List Handle
 written : PageId → Offset → Option Byte
 used : List PageId

inductive Action (Offset Byte : Type*) where
 | newPage (allocated : PageId)
 | fetchPage (pageId : PageId)
 | write (holder : ℕ) (offset : Offset) (byte : Byte)
 | unpin (holder : ℕ) (isDirty : Bool)
 | unpinUnheld (pageId : PageId) (isDirty : Bool)
 | flushPage (pageId : PageId)
 | deletePage (pageId : PageId)

namespace Session

variable {σ Offset Byte : Type*} [Zero Byte] [DecidableEq Offset]

def start (poolSize : ℕ) (replacer : σ) : Session σ Offset Byte :=
 { pool := BufferPoolManager.new poolSize replacer
   handles := []
   written := fun _ _ => some 0
   used := [] }

/-- A pointer that a call returned is held from then on. -/
def opened (self : Session σ Offset Byte) (pageId : PageId)
 (result : BufferPoolManager σ (Offset → Byte) × Option FrameId) : Session σ Offset Byte :=
 match result.2 with
 | none => { self with pool := result.1 }
 | some frameId =>
  { self with
   pool := result.1
   handles := self.handles ++ [⟨pageId, frameId, false⟩]
   used := pageId :: self.used }

def writeByte (self : Session σ Offset Byte) (holder : ℕ) (handle : Handle) (offset : Offset)
 (byte : Byte) : Session σ Offset Byte :=
 let page := self.pool.pages handle.frameId
 { self with
  pool := self.pool.setPage handle.frameId
   { page with data := update page.data offset byte }
  handles := self.handles.set holder { handle with wrote := true }
  written := update self.written handle.pageId
   (update (self.written handle.pageId) offset (some byte)) }

def step (R : Replacer σ) (self : Session σ Offset Byte) :
 Action Offset Byte → Option (Session σ Offset Byte)
 | .newPage allocated => (self.pool.newPage R allocated).map (self.opened allocated)
 | .fetchPage pageId => (self.pool.fetchPage R pageId).map (self.opened pageId)
 | .write holder offset byte =>
  (self.handles[holder]?).map fun handle => self.writeByte holder handle offset byte
 | .unpin holder isDirty =>
  (self.handles[holder]?).bind fun handle =>
   (self.pool.unpinPage R handle.pageId isDirty).map fun result =>
    { self with pool := result.1, handles := self.handles.eraseIdx holder }
 | .unpinUnheld pageId isDirty =>
  (self.pool.unpinPage R pageId isDirty).map fun result => { self with pool := result.1 }
 | .flushPage pageId => some { self with pool := (self.pool.flushPage pageId).1 }
 | .deletePage pageId =>
  (self.pool.deletePage R pageId).map fun result =>
   { self with
    pool := result.1
    written := if result.2 then update self.written pageId (fun _ => none)
     else self.written }

def holders (handles : List Handle) (pageId : PageId) : List Handle :=
 handles.filter (fun handle => handle.pageId = pageId)

/-- Clients keep the rules: a pointer written through is unpinned as dirty, and an
unpin gives back the caller's own pin, or finds that nobody holds the page.  An id
from `AllocatePage` is one that no pointer was returned for. -/
def Disciplined (self : Session σ Offset Byte) : Action Offset Byte → Prop
 | .newPage allocated => allocated ≠ invalidPageId ∧ allocated ∉ self.used
 | .unpin holder isDirty =>
  ∀ handle ∈ self.handles[holder]?, handle.wrote = true → isDirty = true
 | .unpinUnheld pageId _ => holders self.handles pageId = []
 | _ => True

instance (self : Session σ Offset Byte) (action : Action Offset Byte) :
 Decidable (self.Disciplined action) :=
 match action with
 | .newPage allocated =>
  inferInstanceAs (Decidable (allocated ≠ invalidPageId ∧ allocated ∉ self.used))
 | .unpin holder isDirty => inferInstanceAs (Decidable
  (∀ handle ∈ self.handles[holder]?, handle.wrote = true → isDirty = true))
 | .unpinUnheld pageId _ => inferInstanceAs (Decidable (holders self.handles pageId = []))
 | .fetchPage _ | .write _ _ _ | .flushPage _ | .deletePage _ =>
  inferInstanceAs (Decidable True)

/-- Every pinned pointer shows the bytes last written to its page. -/
def Transparent (self : Session σ Offset Byte) : Prop :=
 ∀ handle ∈ self.handles, ∀ offset byte,
  self.written handle.pageId offset = some byte →
   (self.pool.pages handle.frameId).data offset = byte

end Session

end MyNotes.Cmu15445
