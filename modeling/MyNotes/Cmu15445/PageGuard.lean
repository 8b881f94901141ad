/-
Page guards of project 2: `BasicPageGuard`, `ReadPageGuard` and `WritePageGuard`.

A pointer to a page carries the number of the acquisition that pinned it, so that a log
of pins, latches, writes and unpins tells the ownership chains apart.  A latch that other
threads hold is not waited for here: an order of calls in which one would block is a run
as well.  The result of an upgrade is built in place.
-/

import MyNotes.Library.Transition
import MyNotes.Cmu15445.BufferPool

namespace MyNotes.Cmu15445

open Library.Transition

structure PagePtr where
 pageId : PageId
 pin : ℕ
 deriving DecidableEq

inductive Latch where
 | read
 | write
 deriving DecidableEq

inductive PageRecord where
 | acquired (page : PagePtr)
 | latched (page : PagePtr) (latch : Latch)
 | unlatched (page : PagePtr) (latch : Latch)
 | wrote (page : PagePtr)
 | unpinned (page : PagePtr) (isDirty : Bool)
 deriving DecidableEq

abbrev PageLog := List PageRecord

/-- `bpm` says whether `bpm_` is not null. -/
structure BasicPageGuard where
 bpm : Bool
 page : Option PagePtr
 isDirty : Bool
 deriving DecidableEq

/-! ### Operations; `none` is a call through a null pointer -/

namespace BasicPageGuard

def empty : BasicPageGuard := ⟨false, none, false⟩

def unpinPage (page : Option PagePtr) (isDirty : Bool) (log : PageLog) : Option PageLog :=
 page.map fun page => .unpinned page isDirty :: log

/-- The test reads `!bpm_ && !page_`. -/
def drop (self : BasicPageGuard) (log : PageLog) : Option (BasicPageGuard × PageLog) :=
 (if self.bpm = false ∧ self.page = none then unpinPage self.page self.isDirty log
  else some log).map fun log => ({ self with bpm := false, page := none }, log)

/-- The constructed guard and what is left of the other one. -/
def moveConstruct (that : BasicPageGuard) : BasicPageGuard × BasicPageGuard := (that, empty)

/-- Assignment from another guard; `this == &that` does nothing. -/
def moveAssign (self that : BasicPageGuard) (log : PageLog) :
 Option ((BasicPageGuard × BasicPageGuard) × PageLog) :=
 (self.drop log).map fun result => ((that, empty), result.2)

def getDataMut (self : BasicPageGuard) (log : PageLog) : Option (BasicPageGuard × PageLog) :=
 self.page.map fun page => ({ self with isDirty := true }, .wrote page :: log)

def latch (page : Option PagePtr) (latch : Latch) (log : PageLog) : PageLog :=
 match page with
 | some page => .latched page latch :: log
 | none => log

/-- `UpgradeRead` and `UpgradeWrite`: the guard inside the result, what is left of this
guard, and the log. -/
def upgrade (self : BasicPageGuard) (kind : Latch) (log : PageLog) :
 (BasicPageGuard × BasicPageGuard) × PageLog :=
 ((⟨self.bpm, self.page, false⟩, { self with bpm := false, page := none }),
  latch self.page kind log)

end BasicPageGuard

def unlatch (guard : BasicPageGuard) (latch : Latch) (log : PageLog) : PageLog :=
 match guard.page with
 | some page => .unlatched page latch :: log
 | none => log

def ReadPageGuard.drop (guard : BasicPageGuard) (log : PageLog) :
 Option (BasicPageGuard × PageLog) :=
 guard.drop (unlatch guard .read log)

def WritePageGuard.drop (guard : BasicPageGuard) (log : PageLog) :
 Option (BasicPageGuard × PageLog) :=
 BasicPageGuard.drop { guard with isDirty := true } (unlatch guard .write log)

inductive GuardKind where
 | basic
 | latched (latch : Latch)
 deriving DecidableEq

/-- A guard of one of the three classes; a read or write guard has a basic guard inside. -/
structure PageGuard where
 kind : GuardKind
 guard : BasicPageGuard
 deriving DecidableEq

namespace PageGuard

def drop (self : PageGuard) (log : PageLog) : Option (BasicPageGuard × PageLog) :=
 match self.kind with
 | .basic => self.guard.drop log
 | .latched .read => ReadPageGuard.drop self.guard log
 | .latched .write => WritePageGuard.drop self.guard log

/-- The move constructors of read and write guards assign to an empty `guard_`. -/
def moveConstruct (that : PageGuard) (log : PageLog) :
 Option ((BasicPageGuard × BasicPageGuard) × PageLog) :=
 match that.kind with
 | .basic => some (that.guard.moveConstruct, log)
 | .latched _ => BasicPageGuard.empty.moveAssign that.guard log

def moveAssign (self : PageGuard) (that : BasicPageGuard) (log : PageLog) :
 Option ((BasicPageGuard × BasicPageGuard) × PageLog) :=
 match self.kind with
 | .basic => self.guard.moveAssign that log
 | .latched _ => (self.drop log).bind fun result => result.1.moveAssign that result.2

/-- The destructor of a read or write guard drops, and then its `guard_` is destroyed. -/
def destroy (self : PageGuard) (log : PageLog) : Option PageLog :=
 match self.kind with
 | .basic => (self.guard.drop log).map Prod.snd
 | .latched _ => (self.drop log).bind fun result => (result.1.drop result.2).map Prod.snd

/-- Only a basic guard tests for itself first; for the others the assignment of `guard_`
to itself does nothing after `Drop`. -/
def selfAssign (self : PageGuard) (log : PageLog) : Option (BasicPageGuard × PageLog) :=
 match self.kind with
 | .basic => some (self.guard, log)
 | .latched _ => self.drop log

end PageGuard

/-! ### Programs -/

abbrev GuardId := ℕ

/-- The guard variables of a program, and what happened so far. -/
structure GuardProgram where
 guards : GuardId → Option PageGuard
 log : PageLog
 pins : ℕ
 crashed : Bool

inductive GuardAction where
 /-- `NewPageGuarded` or a `FetchPage*` with the page that the pool finds. -/
 | acquire (id : GuardId) (kind : GuardKind) (pageId : Option PageId)
 | moveConstruct (id source : GuardId)
 | moveAssign (id source : GuardId)
 /-- `AsMut` is the same. -/
 | getDataMut (id : GuardId)
 | upgrade (id source : GuardId) (latch : Latch)
 | drop (id : GuardId)
 | destroy (id : GuardId)

namespace GuardProgram

def start : GuardProgram := ⟨fun _ => none, [], 0, false⟩

section

variable (self : GuardProgram)

def crash : GuardProgram := { self with crashed := true }

def set (id : GuardId) (guard : PageGuard) : GuardProgram :=
 { self with guards := Function.update self.guards id (some guard) }

def withLog (log : PageLog) : GuardProgram := { self with log := log }

def acquire (id : GuardId) (kind : GuardKind) (pageId : Option PageId) : GuardProgram :=
 let page := pageId.map fun pageId => ⟨pageId, self.pins⟩
 let log := (page.map PageRecord.acquired).toList ++ self.log
 let log := match kind with
  | .basic => log
  | .latched latch => BasicPageGuard.latch page latch log
 { self.set id ⟨kind, ⟨true, page, false⟩⟩ with log := log, pins := self.pins + 1 }

def finish (id : GuardId) (kind : GuardKind) (source : GuardId) (sourceKind : GuardKind) :
 Option ((BasicPageGuard × BasicPageGuard) × PageLog) → GuardProgram
 | none => self.crash
 | some ((result, rest), log) =>
  ((self.set id ⟨kind, result⟩).set source ⟨sourceKind, rest⟩).withLog log

def finishOne (id : GuardId) (kind : GuardKind) : Option (BasicPageGuard × PageLog) → GuardProgram
 | none => self.crash
 | some (result, log) => (self.set id ⟨kind, result⟩).withLog log

/-- The program after an action; `none` when the program is over or is not typed. -/
def step (action : GuardAction) : Option GuardProgram :=
 if self.crashed then none
 else
  match action with
  | .acquire id kind pageId =>
   match self.guards id with
   | none => some (self.acquire id kind pageId)
   | some _ => none
  | .moveConstruct id source =>
   match self.guards id, self.guards source with
   | none, some that =>
    some (self.finish id that.kind source that.kind (that.moveConstruct self.log))
   | _, _ => none
  | .moveAssign id source =>
   match self.guards id, self.guards source with
   | some guard, some that =>
    if guard.kind = that.kind then
     if id = source then
      some (self.finishOne id guard.kind (guard.selfAssign self.log))
     else
      some (self.finish id guard.kind source that.kind
       (guard.moveAssign that.guard self.log))
    else none
   | _, _ => none
  | .getDataMut id =>
   match self.guards id with
   | some guard =>
    if guard.kind = .latched .read ∨ guard.guard.page = none then none
    else some (self.finishOne id guard.kind (guard.guard.getDataMut self.log))
   | none => none
  | .upgrade id source latch =>
   match self.guards id, self.guards source with
   | none, some that =>
    if that.kind = .basic then
     some (self.finish id (.latched latch) source .basic
      (some (that.guard.upgrade latch self.log)))
    else none
   | _, _ => none
  | .drop id =>
   match self.guards id with
   | some guard => some (self.finishOne id guard.kind (guard.drop self.log))
   | none => none
  | .destroy id =>
   match self.guards id with
   | some guard =>
    match guard.destroy self.log with
    | some log =>
     some { self with guards := Function.update self.guards id none, log := log }
    | none => some self.crash
   | none => none

end

end GuardProgram

end MyNotes.Cmu15445
