/-
Physical pages of the copy-on-write lab: `kalloc.c`.

A physical page is its number.  A page that `kalloc` has handed out is listed as held
until it is mapped for a user or freed; page-table pages stay held.
-/

import Mathlib.Logic.Function.Basic
import Mathlib.Data.Int.Notation
import Mathlib.Data.Nat.Notation

namespace MyNotes.Xv6

open Function

abbrev Page := ℕ

abbrev Pid := ℕ

def pgsize : ℕ := 4096

/-- The flags of a valid user PTE that the code tests. -/
structure Pte where
 pa : Page
 writable : Bool
 user : Bool
 cow : Bool
 deriving DecidableEq

/-- A valid PTE in the page table of a process, with the number of its virtual page. -/
structure Mapping where
 pid : Pid
 va : ℕ
 pte : Pte
 deriving DecidableEq

structure Kernel where
 pageref : Page → ℤ
 freelist : List Page
 mem : Page → ℕ → UInt8
 held : List Page
 ptes : List Mapping
 sz : Pid → ℕ

namespace Kernel

def kfree (self : Kernel) (pa : Page) : Kernel :=
 let count := self.pageref pa - 1
 if count ≤ 0 then
  { self with
   pageref := update self.pageref pa count
   mem := update self.mem pa fun _ => 1
   freelist := pa :: self.freelist }
 else { self with pageref := update self.pageref pa count }

def kalloc (self : Kernel) : Option (Page × Kernel) :=
 match self.freelist with
 | [] => none
 | page :: rest =>
  some (page,
   { self with
    freelist := rest
    mem := update self.mem page fun _ => 5
    pageref := update self.pageref page 1 })

def krefpage (self : Kernel) (pa : Page) : Kernel :=
 { self with pageref := update self.pageref pa (self.pageref pa + 1) }

def kcopyNDeref (self : Kernel) (pa : Page) : Option (Page × Kernel) :=
 if self.pageref pa ≤ 1 then some (pa, self)
 else
  self.kalloc.map fun (page, next) =>
   (page,
    { next with
     mem := update next.mem page (next.mem pa)
     pageref := update next.pageref pa (next.pageref pa - 1) })

/-- The machine before `kinit`. -/
def boot (mem : Page → ℕ → UInt8) : Kernel :=
 { pageref := fun _ => 0, freelist := [], mem := mem, held := [], ptes := [], sz := fun _ => 0 }

/-- `kinit` frees all pages from `end` to `PHYSTOP`. -/
def kinit (mem : Page → ℕ → UInt8) (pages : List Page) : Kernel :=
 pages.foldl kfree (boot mem)

end Kernel

end MyNotes.Xv6
