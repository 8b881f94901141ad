/-
The machine that copy on write stands for.

Every process has pages of its own, and `fork` copies them.  Memory has no limit here, so
an operation that needs a page may fail at any time.
-/

import MyNotes.Xv6.CowFork

namespace MyNotes.Xv6

@[ext] structure PrivatePage where
 bytes : ℕ → UInt8
 user : Bool
 writable : Bool

@[ext] structure PrivateMemory where
 pages : Pid → ℕ → Option PrivatePage
 sz : Pid → ℕ

namespace PrivateMemory

def empty : PrivateMemory := ⟨fun _ _ => none, fun _ => 0⟩

section

variable (self : PrivateMemory)

def put (pid : Pid) (va : ℕ) (page : PrivatePage) : PrivateMemory :=
 { self with
  pages := fun other number =>
   if other = pid ∧ number = va then some page else self.pages other number }

def unmap (pid : Pid) (va npages : ℕ) : PrivateMemory :=
 { self with
  pages := fun other number =>
   if other = pid ∧ va ≤ number ∧ number < va + npages then none
   else self.pages other number }

/-- The pages from `i` on are copied. -/
def copyFrom (old new : Pid) (i remaining : ℕ) : PrivateMemory :=
 { self with
  pages := fun other number =>
   if other = new ∧ i ≤ number ∧ number < i + remaining then self.pages old number
   else self.pages other number }

def setSz (pid : Pid) (sz : ℕ) : PrivateMemory :=
 { self with sz := Function.update self.sz pid sz }

def fork (parent child : Pid) : PrivateMemory :=
 (self.copyFrom parent child 0 (Kernel.pageCount (self.sz parent))).setSz child (self.sz parent)

/-- The page that a process can read at an address. -/
def readable (pid : Pid) (va : ℕ) : Option PrivatePage :=
 (self.pages pid (va / pgsize)).filter PrivatePage.user

end

def writable (self : PrivateMemory) (pid : Pid) (va : ℕ) : Option PrivatePage :=
 (self.readable pid va).filter PrivatePage.writable

def load (self : PrivateMemory) (pid : Pid) (va : ℕ) : Option UInt8 :=
 (self.readable pid va).map fun page => page.bytes (va % pgsize)

def store (self : PrivateMemory) (pid : Pid) (va : ℕ) (byte : UInt8) : Option PrivateMemory :=
 (self.writable pid va).map fun page =>
  self.put pid (va / pgsize)
   { page with bytes := Function.update page.bytes (va % pgsize) byte }

/-- The kernel writes where the process can read, as far as there are pages. -/
def copyout (pid : Pid) (dstva : ℕ) : List UInt8 → PrivateMemory → PrivateMemory × Bool
 | [], self => (self, true)
 | byte :: rest, self =>
  match self.readable pid dstva with
  | none => (self, false)
  | some page =>
   let n := Kernel.chunk dstva (byte :: rest)
   copyout pid ((dstva / pgsize + 1) * pgsize) ((byte :: rest).drop n)
    (self.put pid (dstva / pgsize)
     { page with
      bytes := Kernel.writeBytes page.bytes (dstva % pgsize) ((byte :: rest).take n) })
 termination_by src => src.length
 decreasing_by exact Kernel.drop_chunk_length dstva byte rest

/-- The memory after a call, when its answer is possible. -/
def step (self : PrivateMemory) : Kernel.Event × Kernel.Outcome → Option PrivateMemory
 | (.kalloc, .done) => some self
 | (.kalloc, .failed) => some self
 | (.kfree _, .done) => some self
 | (.map pid va _ writable user _, .done) =>
  if (self.pages pid va).isNone then some (self.put pid va ⟨fun _ => 0, user, writable⟩)
  else none
 | (.map .., .failed) => some self
 | (.setSz pid sz, .done) => some (self.setSz pid sz)
 | (.fork parent child _, .done) => some (self.fork parent child)
 | (.fork .., .failed) => some self
 | (.uvmunmap pid va npages, .done) => some (self.unmap pid va npages)
 | (.load pid va, .value byte) => if self.load pid va = some byte then some self else none
 | (.load .., .trapped) => some self
 | (.load .., .killed) => some self
 | (.store pid va byte, .done) => self.store pid va byte
 | (.store .., .trapped) => some self
 | (.store .., .killed) => some self
 | (.copyout pid dstva src, outcome) =>
  let result := copyout pid dstva src self
  if outcome = .ofBool result.2 then some result.1 else none
 | _ => none

def Permits (self : PrivateMemory) : Kernel.Event → Prop
 | .load pid va => (self.readable pid va).isSome
 | .store pid va _ => (self.writable pid va).isSome
 | _ => True

variable {self : PrivateMemory} {pid : Pid} {va : ℕ}

/-! ### Other processes -/

def writer : Kernel.Event → Option Pid
 | .store pid _ _ => some pid
 | .copyout pid _ _ => some pid
 | _ => none

variable {other : Pid}

theorem put_other (page : PrivatePage) (different : other ≠ pid) :
 (self.put pid va page).pages other = self.pages other := by
 funext number
 exact if_neg fun both => different both.1

theorem load_congr {next : PrivateMemory} (same : next.pages pid = self.pages pid) :
 next.load pid va = self.load pid va := by
 unfold load readable
 rw [same]

theorem copyout_other (dstva : ℕ) (src : List UInt8) (different : other ≠ pid) :
 (copyout pid dstva src self).1.pages other = self.pages other := by
 fun_induction copyout pid dstva src self with
 | case1 => rfl
 | case2 => rfl
 | case3 dstva byte rest self page found n ih =>
  rw [ih, put_other _ different]

theorem step_other {call : Kernel.Event × Kernel.Outcome} {next : PrivateMemory}
 (taken : self.step call = some next) (writes : writer call.1 = some pid)
 (different : other ≠ pid) : next.pages other = self.pages other := by
 obtain ⟨event, outcome⟩ := call
 cases event with
 | store pid va byte =>
  cases writes
  cases outcome with
  | done =>
   obtain ⟨page, -, same⟩ := Option.map_eq_some_iff.mp taken
   rw [← same, put_other _ different]
  | trapped =>
   cases taken
   rfl
  | killed =>
   cases taken
   rfl
  | failed => cases taken
  | value byte => cases taken
 | copyout pid dstva src =>
  cases writes
  dsimp only [step] at taken
  split at taken
  · cases taken
    exact copyout_other dstva src different
  · cases taken
 | _ => cases writes

end PrivateMemory

end MyNotes.Xv6
