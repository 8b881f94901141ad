/-
The buffer cache of lab 8 with a hash table: `bget`, `brelse`, `bpin` and `bunpin`, one step
for each lock that is taken or given back and for the code between two such steps.

A bucket is the list of its buffers, first one first.  A hold is a reference that `bget` or
`bpin` has counted, with the process that has it and the block that `bget` was asked for;
`brelse` and `bunpin` take one back, and processes may pass holds on.
-/

import MyNotes.Library.Transition
import MyNotes.Library.WaitGraph
import Mathlib.Data.Int.Notation

namespace MyNotes.Xv6.Bcache

open Library.Transition Library.WaitGraph Function Function

def numBuckets : ℕ := 13

/-- `if(++idx == NUM_BUCKETS) idx = 0` -/
def nextBucket (idx : Fin numBuckets) : Fin numBuckets :=
 if last : idx.val + 1 = numBuckets then ⟨0, by decide⟩ else ⟨idx.val + 1, by omega⟩

structure Block where
 dev : UInt32
 blockno : UInt32
 deriving DecidableEq, Repr

/-- The spinlocks of `bcache`. -/
inductive Lock where
 | bcache
 | hashlock
 | bucket (idx : Fin numBuckets)
 deriving DecidableEq, Repr

inductive Call where
 | brelse
 | bpin
 | bunpin
 deriving DecidableEq, Repr

/-- `panic("bget: no buffers")` and `panic("brelse")` -/
inductive Panic where
 | noBuffers
 | brelse
 deriving DecidableEq, Repr

variable {nbuf : ℕ} {Pid : Type}

/-- Where a process is; `i` counts the buckets that the search for a victim has visited. -/
inductive Stage (nbuf : ℕ) where
 | idle
 | panicked (panic : Panic)
 | entering (block : Block)
 | searching (block : Block)
 | found (block : Block) (b : Fin nbuf)
 | notCached (block : Block)
 | sizing (block : Block)
 | taken (block : Block) (b : Fin nbuf)
 | filling (block : Block) (b : Fin nbuf)
 | full (block : Block)
 | leaving (block : Block)
 | evicting (block : Block)
 | visiting (block : Block) (idx : Fin numBuckets) (i : ℕ)
 | scanning (block : Block) (idx : Fin numBuckets) (i : ℕ)
 | passing (block : Block) (idx : Fin numBuckets) (i : ℕ)
 | moving (block : Block) (idx : Fin numBuckets) (minb : Fin nbuf)
 | relinking (block : Block) (minb : Fin nbuf)
 | linking (block : Block) (minb : Fin nbuf)
 | reused (block : Block) (b : Fin nbuf)
 | ending (block : Block) (b : Fin nbuf)
 | sleeping (block : Block) (b : Fin nbuf)
 | releasing (block : Block) (b : Fin nbuf)
 | indexing (call : Call) (block : Block) (b : Fin nbuf)
 | locking (call : Call) (block : Block) (b : Fin nbuf) (idx : Fin numBuckets)
 | updating (call : Call) (block : Block) (b : Fin nbuf) (idx : Fin numBuckets)
 | updated (idx : Fin numBuckets)

structure Hold (nbuf : ℕ) (Pid : Type) where
 pid : Pid
 block : Block
 b : Fin nbuf
 deriving DecidableEq

structure State (nbuf : ℕ) (Pid : Type) where
 size : ℕ
 block : Fin nbuf → Block
 valid : Fin nbuf → Bool
 refcnt : Fin nbuf → ℤ
 timestamp : Fin nbuf → UInt32
 buckets : Fin numBuckets → List (Fin nbuf)
 owner : Lock → Option Pid
 sleeper : Fin nbuf → Option Pid
 stage : Pid → Stage nbuf
 held : List (Hold nbuf Pid)

inductive Event (nbuf : ℕ) (Pid : Type) where
 | bget (pid : Pid) (block : Block)
 | call (call : Call) (hold : Hold nbuf Pid)
 | pass (hold : Hold nbuf Pid) (target : Pid)
 | run (pid : Pid) (ticks : UInt32)

namespace Stage

def locks (hash : Block → Fin numBuckets) : Stage nbuf → List Lock
 | .idle | .panicked .brelse | .entering _ | .evicting _ | .sleeping _ _ | .releasing _ _
 | .indexing _ _ _ | .locking _ _ _ _ => []
 | .searching block | .found block _ | .notCached block | .filling block _ | .leaving block =>
  [.bucket (hash block)]
 | .sizing block | .taken block _ | .full block => [.bucket (hash block), .bcache]
 | .panicked .noBuffers | .visiting _ _ _ | .relinking _ _ | .ending _ _ => [.hashlock]
 | .scanning _ idx _ | .passing _ idx _ | .moving _ idx _ => [.hashlock, .bucket idx]
 | .linking block _ | .reused block _ => [.hashlock, .bucket (hash block)]
 | .updating _ _ _ idx | .updated idx => [.bucket idx]

def wants (hash : Block → Fin numBuckets) : Stage nbuf → Option Lock
 | .entering block | .relinking block _ => some (.bucket (hash block))
 | .notCached _ => some .bcache
 | .evicting _ => some .hashlock
 | .visiting _ idx i => if i < numBuckets then some (.bucket idx) else none
 | .locking _ _ _ idx => some (.bucket idx)
 | _ => none

end Stage

inductive Scan (nbuf : ℕ) where
 | cached (b : Fin nbuf)
 | least (minb : Option (Fin nbuf))

namespace State

/-- After `binit`. -/
def start : State nbuf Pid where
 size := 0
 block _ := ⟨0, 0⟩
 valid _ := false
 refcnt _ := 0
 timestamp _ := 0
 buckets _ := []
 owner _ := none
 sleeper _ := none
 stage _ := .idle
 held := []

/-- The loop that looks for a victim; in the bucket of the block also for the block. -/
def scan (self : State nbuf Pid) (block : Block) (own : Bool) :
 List (Fin nbuf) → Option (Fin nbuf) → UInt32 → Scan nbuf
 | [], minb, _ => .least minb
 | b :: rest, minb, mintimestamp =>
  if own ∧ self.block b = block then .cached b
  else if self.refcnt b = 0 ∧ self.timestamp b < mintimestamp then
   self.scan block own rest (some b) (self.timestamp b)
  else self.scan block own rest minb mintimestamp

variable [DecidableEq Pid]

def move (self : State nbuf Pid) (pid : Pid) (stage : Stage nbuf) : State nbuf Pid :=
 { self with stage := update self.stage pid stage }

def acquire (self : State nbuf Pid) (lock : Lock) (pid : Pid) : State nbuf Pid :=
 { self with owner := update self.owner lock (some pid) }

def release (self : State nbuf Pid) (lock : Lock) : State nbuf Pid :=
 { self with owner := update self.owner lock none }

/-- `b->refcnt++`. -/
def hold (self : State nbuf Pid) (hold : Hold nbuf Pid) : State nbuf Pid :=
 { self with
  refcnt := update self.refcnt hold.b (self.refcnt hold.b + 1)
  held := hold :: self.held }

section

variable (self : State nbuf Pid)

/-- `b->refcnt--`. -/
def drop (hold : Hold nbuf Pid) : State nbuf Pid :=
 { self with
  refcnt := update self.refcnt hold.b (self.refcnt hold.b - 1)
  held := self.held.erase hold }

def identify (hold : Hold nbuf Pid) : State nbuf Pid :=
 { self with
  block := update self.block hold.b hold.block
  valid := update self.valid hold.b false
  refcnt := update self.refcnt hold.b 1
  held := hold :: self.held }

def link (idx : Fin numBuckets) (b : Fin nbuf) : State nbuf Pid :=
 { self with buckets := update self.buckets idx (b :: self.buckets idx) }

def unlink (idx : Fin numBuckets) (b : Fin nbuf) : State nbuf Pid :=
 { self with buckets := update self.buckets idx ((self.buckets idx).erase b) }

end

/-- What `brelse`, `bpin` and `bunpin` do under the lock. -/
def update (self : State nbuf Pid) (hold : Hold nbuf Pid) (ticks : UInt32) :
 Call → State nbuf Pid
 | .brelse =>
  if (self.drop hold).refcnt hold.b = 0 then
   { self.drop hold with timestamp := Function.update self.timestamp hold.b ticks }
  else self.drop hold
 | .bpin => self.hold hold
 | .bunpin => self.drop hold

variable (hash : Block → Fin numBuckets)

def run (self : State nbuf Pid) (pid : Pid) (ticks : UInt32) : Option (State nbuf Pid) :=
 match self.stage pid with
 | .idle | .panicked _ => none
 | .entering block =>
  if self.owner (.bucket (hash block)) = none then
   some ((self.acquire (.bucket (hash block)) pid).move pid (.searching block))
  else none
 | .searching block =>
  match (self.buckets (hash block)).find? fun b => self.block b = block with
  | some b => some ((self.hold ⟨pid, block, b⟩).move pid (.found block b))
  | none => some (self.move pid (.notCached block))
 | .found block b =>
  some ((self.release (.bucket (hash block))).move pid (.sleeping block b))
 | .notCached block =>
  if self.owner .bcache = none then
   some ((self.acquire .bcache pid).move pid (.sizing block))
  else none
 | .sizing block =>
  if within : self.size < nbuf then
   some ({ self with size := self.size + 1 }.move pid (.taken block ⟨self.size, within⟩))
  else some (self.move pid (.full block))
 | .taken block b => some ((self.release .bcache).move pid (.filling block b))
 | .filling block b =>
  some (((self.identify ⟨pid, block, b⟩).link (hash block) b).move pid (.found block b))
 | .full block => some ((self.release .bcache).move pid (.leaving block))
 | .leaving block => some ((self.release (.bucket (hash block))).move pid (.evicting block))
 | .evicting block =>
  if self.owner .hashlock = none then
   some ((self.acquire .hashlock pid).move pid (.visiting block (hash block) 0))
  else none
 | .visiting block idx i =>
  if i < numBuckets then
   if self.owner (.bucket idx) = none then
    some ((self.acquire (.bucket idx) pid).move pid (.scanning block idx i))
   else none
  else some (self.move pid (.panicked .noBuffers))
 | .scanning block idx i =>
  match self.scan block (idx = hash block) (self.buckets idx) none (-1) with
  | .cached b => some ((self.hold ⟨pid, block, b⟩).move pid (.reused block b))
  | .least (some minb) =>
   if idx = hash block then
    some ((self.identify ⟨pid, block, minb⟩).move pid (.reused block minb))
   else
    some (((self.identify ⟨pid, block, minb⟩).unlink idx minb).move pid
     (.moving block idx minb))
  | .least none => some (self.move pid (.passing block idx i))
 | .passing block idx i =>
  some ((self.release (.bucket idx)).move pid (.visiting block (nextBucket idx) (i + 1)))
 | .moving block idx minb =>
  some ((self.release (.bucket idx)).move pid (.relinking block minb))
 | .relinking block minb =>
  if self.owner (.bucket (hash block)) = none then
   some ((self.acquire (.bucket (hash block)) pid).move pid (.linking block minb))
  else none
 | .linking block minb => some ((self.link (hash block) minb).move pid (.reused block minb))
 | .reused block b =>
  some ((self.release (.bucket (hash block))).move pid (.ending block b))
 | .ending block b => some ((self.release .hashlock).move pid (.sleeping block b))
 | .sleeping _ b =>
  if self.sleeper b = none then
   some ({ self with sleeper := Function.update self.sleeper b (some pid) }.move pid .idle)
  else none
 | .releasing block b =>
  if self.sleeper b = some pid then
   some ({ self with sleeper := Function.update self.sleeper b none }.move pid
    (.indexing .brelse block b))
  else some (self.move pid (.panicked .brelse))
 | .indexing call block b => some (self.move pid (.locking call block b (hash (self.block b))))
 | .locking call block b idx =>
  if self.owner (.bucket idx) = none then
   some ((self.acquire (.bucket idx) pid).move pid (.updating call block b idx))
  else none
 | .updating call block b idx =>
  some ((self.update ⟨pid, block, b⟩ ticks call).move pid (.updated idx))
 | .updated idx => some ((self.release (.bucket idx)).move pid .idle)

/-- Calls come from processes that are in no other call, with a hold of their own. -/
def step (self : State nbuf Pid) : Event nbuf Pid → Option (State nbuf Pid)
 | .bget pid block =>
  match self.stage pid with
  | .idle => some (self.move pid (.entering block))
  | _ => none
 | .call call hold =>
  match self.stage hold.pid with
  | .idle =>
   if hold ∈ self.held then
    match call with
    | .brelse => some (self.move hold.pid (.releasing hold.block hold.b))
    | .bpin | .bunpin =>
     some (self.move hold.pid (.indexing call hold.block hold.b))
   else none
  | _ => none
 | .pass hold target =>
  match self.stage hold.pid with
  | .idle =>
   if hold ∈ self.held then
    some { self with held := { hold with pid := target } :: self.held.erase hold }
   else none
  | _ => none
 | .run pid ticks => self.run hash pid ticks

/-- Who waits for a spinlock that another process holds. -/
def waits (state : State nbuf Pid) : Pid → Pid → Prop :=
 Waits (fun pid => (state.stage pid).wants hash) state.owner

end State

end MyNotes.Xv6.Bcache
