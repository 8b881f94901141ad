/-
Copy-on-write `fork` of the lab: `vm.c` and the page-fault part of `trap.c`.

The valid user PTEs of all page tables are one list.  How many page-table pages `walk`
has to allocate is a parameter of `mappages`.  A panic has no next state.  Every user PTE
is readable, and a process that is killed makes its `exit` with later steps.
-/

import MyNotes.Xv6.Kalloc

namespace MyNotes.Xv6.Kernel

open Function Option

/-! ### Page tables -/

def walk (self : Kernel) (pid : Pid) (va : ℕ) : Option Pte :=
 (self.ptes.find? fun mapping => mapping.pid = pid ∧ mapping.va = va).map Mapping.pte

/-- `*pte = ...` for a valid PTE. -/
def setPte (self : Kernel) (pid : Pid) (va : ℕ) (pte : Pte) : Kernel :=
 { self with
  ptes := self.ptes.map fun mapping =>
   if mapping.pid = pid ∧ mapping.va = va then { mapping with pte := pte } else mapping }

/-- `*pte = 0`. -/
def clearPte (self : Kernel) (pid : Pid) (va : ℕ) : Kernel :=
 { self with ptes := self.ptes.filter fun mapping => ¬ (mapping.pid = pid ∧ mapping.va = va) }

def addPte (self : Kernel) (pid : Pid) (va : ℕ) (pte : Pte) : Kernel :=
 { self with ptes := ⟨pid, va, pte⟩ :: self.ptes }

/-- The page-table pages that `walk` allocates on its way. -/
def walkAlloc : ℕ → Kernel → Kernel × Bool
 | 0, self => (self, true)
 | interior + 1, self =>
  match self.kalloc with
  | none => (self, false)
  | some (page, next) => walkAlloc interior { next with held := page :: next.held }

/-- `mappages` for one page, with whether it succeeds. -/
def mappages (self : Kernel) (pid : Pid) (va : ℕ) (pte : Pte) (interior : ℕ) :
 Option (Kernel × Bool) :=
 match walkAlloc interior self with
 | (next, false) => some (next, false)
 | (next, true) =>
  if (next.walk pid va).isSome then none else some (next.addPte pid va pte, true)

def uvmunmap (pid : Pid) (doFree : Bool) : ℕ → ℕ → Kernel → Option Kernel
 | _, 0, self => some self
 | va, npages + 1, self =>
  match self.walk pid va with
  | none => none
  | some pte =>
   uvmunmap pid doFree (va + 1) npages
    ((if doFree then self.kfree pte.pa else self).clearPte pid va)

/-! ### Copy on write -/

/-- The flags of both PTEs after `uvmcopy`. -/
def shared (pte : Pte) : Pte :=
 if pte.writable then { pte with writable := false, cow := true } else pte

/-- The PTE of the parent after its flags are changed. -/
def markShared (self : Kernel) (pid : Pid) (va : ℕ) (pte : Pte) : Kernel :=
 if pte.writable then self.setPte pid va (shared pte) else self

/-- The loop of `uvmcopy` from page `i` on. -/
def uvmcopyFrom (old new : Pid) (interior : ℕ → ℕ) : ℕ → ℕ → Kernel → Option (Kernel × Bool)
 | _, 0, self => some (self, true)
 | i, remaining + 1, self =>
  match self.walk old i with
  | none => none
  | some pte =>
   match (self.markShared old i pte).mappages new i (shared pte) (interior i) with
   | none => none
   | some (next, true) =>
    uvmcopyFrom old new interior (i + 1) remaining (next.krefpage pte.pa)
   | some (next, false) => (uvmunmap new true 0 i next).map fun next => (next, false)

def pageCount (sz : ℕ) : ℕ := (sz + pgsize - 1) / pgsize

def uvmcopy (self : Kernel) (old new : Pid) (sz : ℕ) (interior : ℕ → ℕ) :
 Option (Kernel × Bool) :=
 uvmcopyFrom old new interior 0 (pageCount sz) self

def iscowpage (self : Kernel) (pid : Pid) (va : ℕ) : Bool :=
 match self.walk pid (va / pgsize) with
 | some pte => va < self.sz pid ∧ pte.cow
 | none => false

def unshare (pte : Pte) (pa : Page) : Pte := { pte with pa := pa, writable := true, cow := false }

def uvmcowcopy (self : Kernel) (pid : Pid) (va : ℕ) : Option (Kernel × Bool) :=
 match self.walk pid (va / pgsize) with
 | none => none
 | some pte =>
  match self.kcopyNDeref pte.pa with
  | none => some (self, false)
  | some (new, next) =>
   (uvmunmap pid false (va / pgsize) 1 next).bind fun next =>
    match next.mappages pid (va / pgsize) (unshare pte new) 0 with
    | some (next, true) => some (next, true)
    | _ => none

/-- The part of `usertrap` for page faults, with whether the process goes on. -/
def pageFault (self : Kernel) (pid : Pid) (va : ℕ) : Option (Kernel × Bool) :=
 if self.iscowpage pid va then self.uvmcowcopy pid va else some (self, false)

def walkaddr (self : Kernel) (pid : Pid) (va : ℕ) : Option Page :=
 match self.walk pid va with
 | some pte => if pte.user then some pte.pa else none
 | none => none

/-- `memmove` into a page. -/
def writeBytes (bytes : ℕ → UInt8) (offset : ℕ) (src : List UInt8) : ℕ → UInt8 :=
 fun position =>
  if offset ≤ position then (src[position - offset]?).getD (bytes position) else bytes position

/-- The number of bytes that go into the first page. -/
def chunk (dstva : ℕ) (src : List UInt8) : ℕ := min (pgsize - dstva % pgsize) src.length

theorem drop_chunk_length (dstva : ℕ) (byte : UInt8) (rest : List UInt8) :
 ((byte :: rest).drop (chunk dstva (byte :: rest))).length < (byte :: rest).length := by
 have below : dstva % pgsize < pgsize := Nat.mod_lt _ (by decide)
 rw [List.length_drop]
 unfold chunk
 rw [List.length_cons]
 omega

/-- The result of `uvmcowcopy` is not looked at. -/
def breakCow (self : Kernel) (pid : Pid) (va : ℕ) : Option Kernel :=
 if self.iscowpage pid va then (self.uvmcowcopy pid va).map Prod.fst else some self

/-- `copyout` to the process itself, with whether it returns `0`. -/
def copyout (pid : Pid) (dstva : ℕ) : List UInt8 → Kernel → Option (Kernel × Bool)
 | [], self => some (self, true)
 | byte :: rest, self =>
  (self.breakCow pid dstva).bind fun next =>
   match next.walkaddr pid (dstva / pgsize) with
   | none => some (next, false)
   | some pa =>
    let n := chunk dstva (byte :: rest)
    copyout pid ((dstva / pgsize + 1) * pgsize) ((byte :: rest).drop n)
     { next with
      mem := update next.mem pa
       (writeBytes (next.mem pa) (dstva % pgsize) ((byte :: rest).take n)) }
 termination_by src => src.length
 decreasing_by exact drop_chunk_length dstva byte rest

/-! ### Steps -/

inductive Event where
 | kalloc
 | kfree (page : Page)
 /-- `uvmalloc` clears a page and maps it. -/
 | map (pid : Pid) (va : ℕ) (page : Page) (writable user : Bool) (interior : ℕ)
 | setSz (pid : Pid) (sz : ℕ)
 | fork (parent child : Pid) (interior : ℕ → ℕ)
 | uvmunmap (pid : Pid) (va npages : ℕ)
 | load (pid : Pid) (va : ℕ)
 | store (pid : Pid) (va : ℕ) (byte : UInt8)
 | copyout (pid : Pid) (dstva : ℕ) (src : List UInt8)

inductive Outcome where
 | done
 | failed
 | value (byte : UInt8)
 /-- After a page fault the instruction is made again. -/
 | trapped
 | killed
 deriving DecidableEq

def Outcome.ofBool (succeeds : Bool) : Outcome := if succeeds then .done else .failed

def faulted (result : Kernel × Bool) : Kernel × Outcome :=
 (result.1, if result.2 then .trapped else .killed)

def step (self : Kernel) : Event → Option (Kernel × Outcome)
 | .kalloc =>
  match self.kalloc with
  | none => some (self, .failed)
  | some (page, next) => some ({ next with held := page :: next.held }, .done)
 | .kfree page =>
  if page ∈ self.held then
   some (kfree { self with held := self.held.erase page } page, .done)
  else none
 | .map pid va page writable user interior =>
  if page ∈ self.held then
   let cleared := { self with mem := update self.mem page fun _ => 0 }
   (cleared.mappages pid va ⟨page, writable, user, false⟩ interior).map fun result =>
    if result.2 then ({ result.1 with held := result.1.held.erase page }, .done)
    else (result.1, .failed)
  else none
 | .setSz pid sz => some ({ self with sz := update self.sz pid sz }, .done)
 | .fork parent child interior =>
  (self.uvmcopy parent child (self.sz parent) interior).map fun result =>
   if result.2 then
    ({ result.1 with sz := update result.1.sz child (result.1.sz parent) }, .done)
   else (result.1, .failed)
 | .uvmunmap pid va npages =>
  (Kernel.uvmunmap pid true va npages self).map fun next => (next, .done)
 | .load pid va =>
  match self.walk pid (va / pgsize) with
  | some pte =>
   if pte.user then some (self, .value (self.mem pte.pa (va % pgsize)))
   else (self.pageFault pid va).map faulted
  | none => (self.pageFault pid va).map faulted
 | .store pid va byte =>
  match self.walk pid (va / pgsize) with
  | some pte =>
   if pte.user ∧ pte.writable then
    some ({ self with
     mem := update self.mem pte.pa
      (update (self.mem pte.pa) (va % pgsize) byte) }, .done)
   else (self.pageFault pid va).map faulted
  | none => (self.pageFault pid va).map faulted
 | .copyout pid dstva src =>
  (Kernel.copyout pid dstva src self).map fun result => (result.1, .ofBool result.2)

def performs (state : Kernel) (call : Event × Outcome) (next : Kernel) : Prop :=
 state.step call.1 = some (next, call.2)

/-! ### What a step can do -/

inductive Performed (state : Kernel) : Event → Outcome → Kernel → Prop
 | exhausted (none : state.kalloc = none) : Performed state .kalloc .failed state
 | kalloc {page : Page} {next : Kernel} (allocated : state.kalloc = some (page, next)) :
  Performed state .kalloc .done { next with held := page :: next.held }
 | kfree {page : Page} (member : page ∈ state.held) :
  Performed state (.kfree page) .done
   (Kernel.kfree { state with held := state.held.erase page } page)
 | map {pid : Pid} {va interior : ℕ} {page : Page} {writable user : Bool} {next : Kernel}
  (member : page ∈ state.held)
  (added : mappages { state with mem := update state.mem page fun _ => 0 } pid va
   ⟨page, writable, user, false⟩ interior = some (next, true)) :
  Performed state (.map pid va page writable user interior) .done
   { next with held := next.held.erase page }
 | mapFailed {pid : Pid} {va interior : ℕ} {page : Page} {writable user : Bool} {next : Kernel}
  (member : page ∈ state.held)
  (added : mappages { state with mem := update state.mem page fun _ => 0 } pid va
   ⟨page, writable, user, false⟩ interior = some (next, false)) :
  Performed state (.map pid va page writable user interior) .failed next
 | setSz (pid : Pid) (sz : ℕ) :
  Performed state (.setSz pid sz) .done { state with sz := update state.sz pid sz }
 | fork {parent child : Pid} {interior : ℕ → ℕ} {next : Kernel}
  (copied : state.uvmcopy parent child (state.sz parent) interior = some (next, true)) :
  Performed state (.fork parent child interior) .done
   { next with sz := update next.sz child (next.sz parent) }
 | forkFailed {parent child : Pid} {interior : ℕ → ℕ} {next : Kernel}
  (copied : state.uvmcopy parent child (state.sz parent) interior = some (next, false)) :
  Performed state (.fork parent child interior) .failed next
 | uvmunmap {pid : Pid} {va npages : ℕ} {next : Kernel}
  (unmapped : Kernel.uvmunmap pid true va npages state = some next) :
  Performed state (.uvmunmap pid va npages) .done next
 | load {pid : Pid} {va : ℕ} {pte : Pte} (found : state.walk pid (va / pgsize) = some pte)
  (user : pte.user) :
  Performed state (.load pid va) (.value (state.mem pte.pa (va % pgsize))) state
 | loadTrapped {pid : Pid} {va : ℕ} {next : Kernel}
  (handled : state.pageFault pid va = some (next, true)) :
  Performed state (.load pid va) .trapped next
 | loadKilled {pid : Pid} {va : ℕ} {next : Kernel}
  (handled : state.pageFault pid va = some (next, false)) :
  Performed state (.load pid va) .killed next
 | store {pid : Pid} {va : ℕ} {byte : UInt8} {pte : Pte}
  (found : state.walk pid (va / pgsize) = some pte) (user : pte.user)
  (writable : pte.writable) :
  Performed state (.store pid va byte) .done
   { state with
    mem := update state.mem pte.pa
     (update (state.mem pte.pa) (va % pgsize) byte) }
 | storeTrapped {pid : Pid} {va : ℕ} {byte : UInt8} {next : Kernel}
  (handled : state.pageFault pid va = some (next, true)) :
  Performed state (.store pid va byte) .trapped next
 | storeKilled {pid : Pid} {va : ℕ} {byte : UInt8} {next : Kernel}
  (handled : state.pageFault pid va = some (next, false)) :
  Performed state (.store pid va byte) .killed next
 | copyout {pid : Pid} {dstva : ℕ} {src : List UInt8} {next : Kernel}
  (copied : Kernel.copyout pid dstva src state = some (next, true)) :
  Performed state (.copyout pid dstva src) .done next
 | copyoutFailed {pid : Pid} {dstva : ℕ} {src : List UInt8} {next : Kernel}
  (copied : Kernel.copyout pid dstva src state = some (next, false)) :
  Performed state (.copyout pid dstva src) .failed next

variable {self next : Kernel} {outcome : Outcome}

variable {pid : Pid} {va : ℕ}

section

variable (answer : (self.pageFault pid va).map faulted = some (next, outcome))
include answer

theorem faulted_cases :
 (outcome = .trapped ∧ self.pageFault pid va = some (next, true)) ∨
  (outcome = .killed ∧ self.pageFault pid va = some (next, false)) := by
 obtain ⟨result, handled, same⟩ := map_eq_some_iff.mp answer
 obtain ⟨state, ok⟩ := result
 cases ok with
 | true =>
  cases same
  exact Or.inl ⟨rfl, handled⟩
 | false =>
  cases same
  exact Or.inr ⟨rfl, handled⟩

theorem Performed.load_fault : Performed self (.load pid va) outcome next := by
 rcases faulted_cases answer with ⟨same, handled⟩ | ⟨same, handled⟩
 · rw [same]
   exact .loadTrapped handled
 · rw [same]
   exact .loadKilled handled

theorem Performed.store_fault {byte : UInt8} :
 Performed self (.store pid va byte) outcome next := by
 rcases faulted_cases answer with ⟨same, handled⟩ | ⟨same, handled⟩
 · rw [same]
   exact .storeTrapped handled
 · rw [same]
   exact .storeKilled handled

end

theorem performed {event : Event} (taken : self.performs (event, outcome) next) :
 Performed self event outcome next := by
 unfold performs at taken
 cases event with
 | kalloc =>
  dsimp only [step] at taken
  cases allocated : self.kalloc with
  | none =>
   rw [allocated] at taken
   cases taken
   exact .exhausted allocated
  | some both =>
   rw [allocated] at taken
   cases taken
   exact .kalloc allocated
 | kfree page =>
  dsimp only [step] at taken
  split at taken
  · rename_i member
    cases taken
    exact .kfree member
  · cases taken
 | map pid va page writable user interior =>
  dsimp only [step] at taken
  split at taken
  · rename_i member
    obtain ⟨⟨state, ok⟩, added, same⟩ := map_eq_some_iff.mp taken
    cases ok with
    | true =>
     cases same
     exact .map member added
    | false =>
     cases same
     exact .mapFailed member added
  · cases taken
 | setSz pid sz =>
  cases taken
  exact .setSz pid sz
 | fork parent child interior =>
  obtain ⟨⟨state, ok⟩, copied, same⟩ := map_eq_some_iff.mp taken
  cases ok with
  | true =>
   cases same
   exact .fork copied
  | false =>
   cases same
   exact .forkFailed copied
 | uvmunmap pid va npages =>
  obtain ⟨state, unmapped, same⟩ := map_eq_some_iff.mp taken
  cases same
  exact .uvmunmap unmapped
 | load pid va =>
  dsimp only [step] at taken
  split at taken
  · rename_i pte found
    split at taken
    · rename_i user
      cases taken
      exact .load found user
    · exact .load_fault taken
  · exact .load_fault taken
 | store pid va byte =>
  dsimp only [step] at taken
  split at taken
  · rename_i pte found
    split at taken
    · rename_i flags
      cases taken
      exact .store found flags.1 flags.2
    · exact .store_fault taken
  · exact .store_fault taken
 | copyout pid dstva src =>
  obtain ⟨⟨state, ok⟩, copied, same⟩ := map_eq_some_iff.mp taken
  cases ok with
  | true =>
   cases same
   exact .copyout copied
  | false =>
   cases same
   exact .copyoutFailed copied

end MyNotes.Xv6.Kernel
