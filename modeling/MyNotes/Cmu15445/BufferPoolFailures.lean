/-
Calls of the buffer pool that fail.

A call that returns a null pointer or false changes nothing, unless it is an unpin
that marks an unpinned page as dirty.  `AllocatePage` is a parameter, since its body
is not in the notes; the state it takes its ids from is kept next to the pool, so
that an id that was taken in vain can be seen.
-/

import MyNotes.Library.Transition
import MyNotes.Cmu15445.BufferPool
import Mathlib.Algebra.GroupWithZero.Nat

namespace MyNotes.Cmu15445

open Library.Transition BufferPoolManager Option

/-- The pool, and the state of `AllocatePage`. -/
structure AllocatingPool (σ Data τ : Type*) where
 pool : BufferPoolManager σ Data
 allocator : τ

inductive Request where
 | newPage
 | fetchPage (pageId : PageId)
 | unpinPage (pageId : PageId) (isDirty : Bool)
 | flushPage (pageId : PageId)
 | deletePage (pageId : PageId)

def BufferPoolManager.Answer.Failed : Answer → Prop
 | .pointer frame => frame = none
 | .flag success => success = false

namespace AllocatingPool

variable {σ Data τ : Type*} [Zero Data]

/-- `NewPage` takes an id after it has found a frame. -/
def newPage (R : Replacer σ) (allocatePage : τ → PageId × τ) (self : AllocatingPool σ Data τ) :
 Option (AllocatingPool σ Data τ × Option FrameId) :=
 match self.pool.pickFrame R with
 | none => some (self, none)
 | some (frameId, pool) =>
  let (allocated, allocator) := allocatePage self.allocator
  (pool.adopt R frameId allocated).map fun pool => (⟨pool, allocator⟩, some frameId)

def withPool (self : AllocatingPool σ Data τ) (pool : BufferPoolManager σ Data) :
 AllocatingPool σ Data τ :=
 { self with pool := pool }

def serve (R : Replacer σ) (allocatePage : τ → PageId × τ) (self : AllocatingPool σ Data τ) :
 Request → Option (AllocatingPool σ Data τ × Answer)
 | .newPage =>
  (self.newPage R allocatePage).map fun result => (result.1, .pointer result.2)
 | .fetchPage pageId =>
  (self.pool.fetchPage R pageId).map fun result =>
   (self.withPool result.1, .pointer result.2)
 | .unpinPage pageId isDirty =>
  (self.pool.unpinPage R pageId isDirty).map fun result =>
   (self.withPool result.1, .flag result.2)
 | .flushPage pageId =>
  some (self.withPool (self.pool.flushPage pageId).1, .flag (self.pool.flushPage pageId).2)
 | .deletePage pageId =>
  (self.pool.deletePage R pageId).map fun result =>
   (self.withPool result.1, .flag result.2)

def step (R : Replacer σ) (allocatePage : τ → PageId × τ) (self : AllocatingPool σ Data τ)
 (request : Request) : Option (AllocatingPool σ Data τ) :=
 (self.serve R allocatePage request).map Prod.fst

/-! ### What a failed call leaves -/

theorem newPage_null {R : Replacer σ} {allocatePage : τ → PageId × τ}
 {self next : AllocatingPool σ Data τ}
 (null : self.newPage R allocatePage = some (next, none)) : next = self := by
 unfold newPage at null
 cases picked : self.pool.pickFrame R with
 | none =>
  rw [picked] at null
  cases null
  rfl
 | some found =>
  simp_all

end AllocatingPool

namespace BufferPoolManager

variable {σ Data : Type*} {R : Replacer σ} {self next : BufferPoolManager σ Data}

/-- The unpin of a mapped page that nobody has pinned and that is clean, as dirty. -/
def MarksUnpinned (self : BufferPoolManager σ Data) : Request → Prop
 | .unpinPage pageId isDirty =>
  isDirty = true ∧ pageId ≠ invalidPageId ∧ ∃ frameId, self.pageTable pageId = some frameId ∧
   (self.pages frameId).pinCount = 0 ∧ (self.pages frameId).isDirty = false
 | _ => False

variable {pageId : PageId}

theorem fetchPage_null [Zero Data] (null : self.fetchPage R pageId = some (next, none)) :
 next = self := by
 unfold fetchPage at null
 split at null
 · cases null
   rfl
 · split at null
   · simp_all
   · split at null
     · cases null
       rfl
     · simp_all

theorem flushPage_false (refused : (self.flushPage pageId).2 = false) :
 (self.flushPage pageId).1 = self := by
 unfold flushPage at refused ⊢
 split at refused
 · rename_i invalid
   rw [if_pos invalid]
 · rename_i valid
   rw [if_neg valid]
   cases found : self.pageTable pageId with
   | none => rfl
   | some frameId =>
    rw [found] at refused
    cases refused

theorem deletePage_false [Zero Data] (refused : self.deletePage R pageId = some (next, false)) :
 next = self := by
 unfold deletePage at refused
 split at refused
 · cases refused
 · split at refused
   · cases refused
   · split at refused
     · cases refused
       rfl
     · simp_all

theorem setPage_isDirty_eq_iff (self : BufferPoolManager σ Data) (frameId : FrameId)
 (isDirty : Bool) :
 self.setPage frameId { self.pages frameId with isDirty := isDirty } = self ↔
  isDirty = (self.pages frameId).isDirty := by
 constructor
 · intro same
   have written := congrArg (fun state => (state.pages frameId).isDirty) same
   dsimp only [setPage] at written
   simp_all
 · intro same
   rw [same]
   unfold setPage
   rw [Function.update_eq_self]

theorem unpinPage_false {isDirty : Bool}
 (refused : self.unpinPage R pageId isDirty = some (next, false)) :
 next = self ↔ ¬ self.MarksUnpinned (.unpinPage pageId isDirty) := by
 unfold unpinPage at refused
 unfold MarksUnpinned
 split at refused
 · simp_all
 · rename_i valid
   cases found : self.pageTable pageId with
   | none =>
    simp_all
   | some frameId =>
    rw [found] at refused
    dsimp only at refused
    split at refused
    · rename_i unpinned
      cases refused
      rw [setPage_isDirty_eq_iff]
      cases isDirty with
      | false => simp
      | true =>
       rw [Bool.true_or, eq_comm]
       constructor
       · simp_all
       · intro unmarked
         cases clean : (self.pages frameId).isDirty with
         | true => rfl
         | false => simp_all
    · split at refused
      · simp_all
      · cases refused

end BufferPoolManager

namespace AllocatingPool

variable {σ Data τ : Type*} [Zero Data]

/-- A call that reports failure, in any state of the pool, leaves the pool, the replacer, the disk
and the page ids as they were, except for the unpin that marks an unpinned page as dirty. -/
theorem failed_call_atomic_iff (R : Replacer σ) (allocatePage : τ → PageId × τ)
 (self next : AllocatingPool σ Data τ) (request : Request) (answer : Answer)
 (done : self.serve R allocatePage request = some (next, answer)) (failed : answer.Failed) :
 next = self ↔ ¬ self.pool.MarksUnpinned request := by
 cases request with
 | newPage =>
  obtain ⟨⟨state, frame⟩, called, result⟩ := map_eq_some_iff.mp done
  cases result
  cases failed
  exact iff_of_true (newPage_null called) id
 | fetchPage pageId =>
  obtain ⟨⟨pool, frame⟩, called, result⟩ := map_eq_some_iff.mp done
  cases result
  cases failed
  exact iff_of_true (congrArg self.withPool (fetchPage_null called)) id
 | unpinPage pageId isDirty =>
  obtain ⟨⟨pool, success⟩, called, result⟩ := map_eq_some_iff.mp done
  cases result
  cases failed
  rw [← unpinPage_false called]
  exact ⟨congrArg AllocatingPool.pool, congrArg self.withPool⟩
 | flushPage pageId =>
  cases done
  exact iff_of_true (congrArg self.withPool (flushPage_false failed)) id
 | deletePage pageId =>
  obtain ⟨⟨pool, success⟩, called, result⟩ := map_eq_some_iff.mp done
  cases result
  cases failed
  exact iff_of_true (congrArg self.withPool (deletePage_false called)) id

/-- A pool over the LRU-K replacer, with ids from a counter. -/
def start (poolSize k : ℕ) : AllocatingPool LRUKReplacer ℕ ℤ :=
 ⟨BufferPoolManager.new poolSize (LRUKReplacer.new poolSize k), 0⟩

def nextId (allocator : ℤ) : PageId × ℤ := (allocator, allocator + 1)

/-- What the call after a run answers, and whether a page is dirty before and after it. -/
def lastCall (poolSize k : ℕ) (requests : List Request) (request : Request) (frameId : FrameId) :
 Option (Answer × Bool × Bool) :=
 (replay (step LRUKReplacer.replacer nextId) (start poolSize k) requests).bind fun state =>
  (state.serve LRUKReplacer.replacer nextId request).map fun result =>
   (result.2, (state.pool.pages frameId).isDirty, (result.1.pool.pages frameId).isDirty)

theorem exists_of_lastCall {poolSize k : ℕ} {requests : List Request} {request : Request}
 {frameId : FrameId} {seen : Answer × Bool × Bool}
 (last : lastCall poolSize k requests request frameId = some seen) :
 ∃ state next, Run (ofFunction (step LRUKReplacer.replacer nextId)) (start poolSize k)
  requests state ∧
  state.serve LRUKReplacer.replacer nextId request = some (next, seen.1) ∧
  (state.pool.pages frameId).isDirty = seen.2.1 ∧
  (next.pool.pages frameId).isDirty = seen.2.2 := by
 obtain ⟨state, replayed, rest⟩ := bind_eq_some_iff.mp last
 obtain ⟨⟨next, answer⟩, served, same⟩ := map_eq_some_iff.mp rest
 cases same
 exact ⟨state, next, Run.of_replay_all replayed, served, rfl, rfl⟩

theorem failed_call_atomic_full :
 ∃ state next answer, Run (ofFunction (step LRUKReplacer.replacer nextId)) (start 1 2)
  [.newPage] state ∧
  state.serve LRUKReplacer.replacer nextId .newPage = some (next, answer) ∧ answer.Failed ∧
  (next = state ↔ ¬ state.pool.MarksUnpinned .newPage) := by
 obtain ⟨state, next, run, served, -, -⟩ := exists_of_lastCall
  (show lastCall 1 2 [.newPage] .newPage 0 = some (.pointer none, false, false) by rfl)
 exact ⟨state, next, _, run, served, rfl,
  failed_call_atomic_iff LRUKReplacer.replacer nextId state next .newPage _ served rfl⟩

/-- The second unpin of a page is refused, and leaves the page dirty. -/
theorem refused_unpin_marks :
 ∃ state next, Run (ofFunction (step LRUKReplacer.replacer nextId)) (start 1 2)
  [.newPage, .unpinPage 0 false] state ∧
  state.serve LRUKReplacer.replacer nextId (.unpinPage 0 true) = some (next, .flag false) ∧
  (state.pool.pages 0).isDirty = false ∧ (next.pool.pages 0).isDirty = true :=
 exists_of_lastCall (show lastCall 1 2 [.newPage, .unpinPage 0 false] (.unpinPage 0 true) 0 =
  some (.flag false, false, true) by rfl)

end AllocatingPool

end MyNotes.Cmu15445
