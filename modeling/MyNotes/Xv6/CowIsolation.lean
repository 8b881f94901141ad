/-
Copy on write looks like private memory.

Each PTE stands for a private page: the bytes behind it and the flags without the marks of
copy on write.  Every call acts on these pages as the call of the copying machine does.
-/

import MyNotes.Xv6.CowRefcount
import MyNotes.Xv6.PrivateMemory

namespace MyNotes.Xv6.Kernel

open Library.Transition Function List Option PrivateMemory

def content (self : Kernel) (pte : Pte) : PrivatePage :=
 ⟨self.mem pte.pa, pte.user, pte.writable || pte.cow⟩

def view (self : Kernel) : PrivateMemory :=
 { pages := fun pid va => (self.walk pid va).map self.content, sz := self.sz }

variable {self next : Kernel} {pid : Pid} {va : ℕ} {pte : Pte} {pages : List Page} {page : Page}
 {fresh : Page → Prop}

/-! ### PTEs and private pages -/

theorem view_pages (found : self.walk pid va = some pte) :
 self.view.pages pid va = some (self.content pte) := by
 unfold view
 dsimp only
 rw [found]
 rfl

theorem view_frame (ptes : next.ptes = self.ptes) (sz : next.sz = self.sz)
 (mem : ∀ page, 0 < self.mapped page → next.mem page = self.mem page) :
 next.view = self.view := by
 apply PrivateMemory.ext
 · funext pid va
   have same : next.walk pid va = self.walk pid va := by
    unfold walk
    rw [ptes]
   unfold view
   dsimp only
   rw [same]
   cases found : self.walk pid va with
   | none => rfl
   | some pte =>
    have bytes := mem pte.pa (mapped_pos (mem_of_walk found))
    simp only [map_some, content, bytes]
 · exact sz

variable {other : Pid} {number : ℕ}

theorem walk_addPte : (self.addPte pid va pte).walk other number =
 if other = pid ∧ number = va then some pte else self.walk other number := by
 unfold walk addPte
 rw [find?_cons]
 by_cases hit : other = pid ∧ number = va
 · simp_all
 · have miss : ¬ (pid = other ∧ va = number) := fun both => hit ⟨both.1.symm, both.2.symm⟩
   rw [if_neg hit, decide_eq_false miss]

theorem walk_clearPte_of : (self.clearPte pid va).walk other number =
 if other = pid ∧ number = va then none else self.walk other number := by
 split
 · rename_i hit
   rw [hit.1, hit.2]
   exact walk_clearPte
 · rename_i miss
   unfold walk clearPte
   rw [find?_filter]
   congr 2
   funext mapping
   by_cases found : mapping.pid = other ∧ mapping.va = number
   · have kept : ¬ (mapping.pid = pid ∧ mapping.va = va) := by
      rw [found.1, found.2]
      exact miss
     simp_all
   · simp_all

theorem view_addPte : (self.addPte pid va pte).view = self.view.put pid va (self.content pte) := by
 apply PrivateMemory.ext
 · funext other number
   unfold view put
   dsimp only
   rw [walk_addPte]
   split <;> rfl
 · rfl

theorem view_clearPte : (self.clearPte pid va).view = self.view.unmap pid va 1 := by
 apply PrivateMemory.ext
 · funext other number
   unfold view unmap
   dsimp only
   rw [walk_clearPte_of]
   have same : (other = pid ∧ number = va) ↔ (other = pid ∧ va ≤ number ∧ number < va + 1) := by
    constructor
    · intro both
      exact ⟨both.1, by omega, by omega⟩
    · intro all
      exact ⟨all.1, by omega⟩
   by_cases hit : other = pid ∧ number = va
   · rw [if_pos hit, if_pos (same.mp hit)]
     rfl
   · rw [if_neg hit, if_neg (same.not.mp hit)]
     rfl
 · rfl

theorem view_write (found : self.walk pid va = some pte)
 (once : self.mapped pte.pa ≤ 1) (bytes : ℕ → UInt8) :
 view { self with mem := update self.mem pte.pa bytes } =
  self.view.put pid va { self.content pte with bytes := bytes } := by
 apply PrivateMemory.ext
 · funext other number
   unfold view put
   change (self.walk other number).map _ = _
   dsimp only
   by_cases hit : other = pid ∧ number = va
   · rw [if_pos hit, hit.1, hit.2, found]
     unfold content
     simp only [map_some, update_self]
   · rw [if_neg hit]
     cases stored : self.walk other number with
     | none => rfl
     | some unchanged =>
      have different : unchanged.pa ≠ pte.pa := by
       intro same
       have equal := eq_of_mapped_le_one (mem_of_walk found) (mem_of_walk stored) same once
       cases equal
       exact hit ⟨rfl, rfl⟩
      unfold content
      simp_all
 · rfl

/-! ### Allocation -/

theorem Counted.kalloc_view (counted : self.Counted pages fresh)
 (allocated : self.kalloc = some (page, next)) : next.view = self.view := by
 obtain ⟨rest, free, same⟩ := kalloc_some allocated
 subst same
 refine view_frame ?_ ?_ ?_
 · rfl
 · rfl
 · intro other present
   have isFree : page ∈ self.freelist := free ▸ mem_cons_self
   exact update_of_ne (counted.ne_free present isFree) _ _

variable {state : Kernel}

theorem Counted.walkAlloc_view (counted : state.Counted pages fresh) (interior : ℕ) :
 (Kernel.walkAlloc interior state).1.view = state.view := by
 induction interior generalizing state with
 | zero => rfl
 | succ interior ih =>
  unfold Kernel.walkAlloc
  cases allocated : state.kalloc with
  | none => rfl
  | some both =>
   have seen := counted.kalloc_view allocated
   exact (ih (counted.hold allocated)).trans seen

theorem kfree_mem {other : Page} (different : other ≠ page) :
 (self.kfree page).mem other = self.mem other := by
 unfold kfree
 dsimp only
 split
 · exact update_of_ne different _ _
 · rfl

theorem kfree_mem_shared (twice : 1 < self.pageref page) : (self.kfree page).mem = self.mem := by
 unfold kfree
 rw [if_neg (by omega)]

theorem Counted.kfree_view (counted : self.Counted pages fresh) (member : page ∈ self.held) :
 (kfree { self with held := self.held.erase page } page).view = self.view := by
 obtain ⟨-, -, ptes, -, sz⟩ := kfree_eq { self with held := self.held.erase page } page
 apply view_frame ptes sz
 intro other present
 exact kfree_mem (counted.ne_held present member)

theorem Counted.unmap_view (counted : self.Counted pages fresh)
 (found : self.walk pid va = some pte) :
 ((self.kfree pte.pa).clearPte pid va).view = self.view.unmap pid va 1 := by
 obtain ⟨-, -, ptes, -, sz⟩ := kfree_eq self pte.pa
 rw [← view_clearPte]
 apply view_frame
 · unfold clearPte
   rw [ptes]
 · exact sz
 · intro other present
   by_cases same : other = pte.pa
   · rw [mapped_clearPte counted.keys found, same, update_self] at present
     have count := counted.pageref (owners_pos_of_walk found)
     have : self.mapped pte.pa ≤ self.owners pte.pa := Nat.le_add_right _ _
     exact congrFun (kfree_mem_shared (by omega)) other
   · exact kfree_mem same

theorem unmap_zero (memory : PrivateMemory) : memory.unmap pid va 0 = memory := by
 apply PrivateMemory.ext
 · funext other number
   exact if_neg (by omega)
 · rfl

theorem unmap_succ (memory : PrivateMemory) (npages : ℕ) :
 (memory.unmap pid va 1).unmap pid (va + 1) npages = memory.unmap pid va (npages + 1) := by
 apply PrivateMemory.ext
 · funext other number
   unfold unmap
   dsimp only
   split
   · rename_i hit
     rw [if_pos ⟨hit.1, by omega⟩]
   · rename_i miss
     by_cases first : other = pid ∧ va ≤ number ∧ number < va + 1
     · rw [if_pos first, if_pos ⟨first.1, by omega⟩]
     · rw [if_neg first, if_neg]
       intro all
       by_cases here : number = va
       · exact first ⟨all.1, by omega⟩
       · exact miss ⟨all.1, by omega⟩
 · rfl

theorem Counted.uvmunmap_view {npages : ℕ} (counted : self.Counted pages fresh)
 (unmapped : Kernel.uvmunmap pid true va npages self = some next) :
 next.view = self.view.unmap pid va npages := by
 induction npages generalizing va self with
 | zero =>
  cases unmapped
  exact (unmap_zero _).symm
 | succ npages ih =>
  obtain ⟨pte, found, later⟩ := uvmunmap_round unmapped
  rw [ih (counted.unmap found) later, ← unmap_succ]
  congr 1
  exact counted.unmap_view found

/-! ### `fork` -/

theorem content_shared (pte : Pte) : self.content (shared pte) = self.content pte := by
 unfold content
 rw [shared_pa]
 unfold shared
 split
 · rename_i writable
   rw [writable]
   rfl
 · rfl

theorem walk_setPte : (self.setPte pid va pte).walk other number =
 if other = pid ∧ number = va then (self.walk pid va).map fun _ => pte
 else self.walk other number := by
 have search : (fun mapping : Mapping => decide (mapping.pid = other ∧ mapping.va = number)) ∘
  (fun mapping : Mapping => if mapping.pid = pid ∧ mapping.va = va then
   { mapping with pte := pte } else mapping) =
  fun mapping => decide (mapping.pid = other ∧ mapping.va = number) := by
  funext mapping
  dsimp only [comp_apply]
  split <;> rfl
 unfold walk setPte
 rw [find?_map, search, Option.map_map]
 by_cases hit : other = pid ∧ number = va
 · rw [if_pos hit, Option.map_map, hit.1, hit.2]
   apply Option.map_congr
   intro mapping found
   have hit := find?_some found
   have key := of_decide_eq_true hit
   dsimp only [comp_apply]
   rw [if_pos key]
 · rw [if_neg hit]
   apply Option.map_congr
   intro mapping found
   have stored := find?_some found
   have key := of_decide_eq_true stored
   grind

theorem markShared_walk (found : self.walk pid va = some pte) :
 (self.markShared pid va pte).walk pid va = some (shared pte) := by
 unfold markShared
 split
 · rw [walk_setPte, if_pos ⟨rfl, rfl⟩, found, map_some]
 · rename_i unwritable
   unfold shared
   rw [if_neg unwritable, found]

theorem markShared_view (found : self.walk pid va = some pte) :
 (self.markShared pid va pte).view = self.view := by
 unfold markShared
 split
 · apply PrivateMemory.ext
   · funext other number
     unfold view
     dsimp only
     rw [walk_setPte]
     split
     · rename_i hit
       rw [found, hit.1, hit.2, found, map_some, map_some, map_some]
       congr 1
       exact content_shared pte
     · rfl
   · rfl
 · rfl

theorem view_pages_none : self.view.pages pid va = none ↔ self.walk pid va = none :=
 map_eq_none_iff

variable {old new : Pid} {i : ℕ} {ok : Bool}

theorem Counted.mappages_view {interior : ℕ} (counted : self.Counted pages fresh)
 (found : self.walk old i = some pte)
 (copied : (self.markShared old i pte).mappages new i (shared pte) interior =
  some (next, ok)) :
 (ok = false ∧ next.view = self.view) ∨
  (ok = true ∧ self.view.pages new i = none ∧
   next.view = self.view.put new i (self.content pte)) := by
 have marked := (counted.markShared found).1
 have allocated : (Kernel.walkAlloc interior (self.markShared old i pte)).1.view = self.view :=
  (marked.walkAlloc_view interior).trans (markShared_view found)
 rcases mappages_some copied with ⟨refused, same⟩ | ⟨taken, absent, same⟩
 · simp_all
 · refine .inr ⟨taken, ?_, ?_⟩
   · rw [← allocated]
     exact view_pages_none.mpr absent
   · have page : (Kernel.walkAlloc interior (self.markShared old i pte)).1.content (shared pte) =
      self.content pte := by
      obtain ⟨ptes, -, -⟩ := walkAlloc_frame interior (self.markShared old i pte)
      have walked : (Kernel.walkAlloc interior (self.markShared old i pte)).1.walk old i =
       some (shared pte) := by
       unfold walk
       rw [ptes]
       exact markShared_walk found
      have stored := view_pages walked
      rw [allocated, view_pages found] at stored
      exact (some.inj stored).symm
     rw [same, view_addPte, allocated, page]

theorem copyFrom_zero (memory : PrivateMemory) (old new : Pid) (i : ℕ) :
 memory.copyFrom old new i 0 = memory := by
 apply PrivateMemory.ext
 · funext other number
   exact if_neg (by omega)
 · rfl

variable {memory : PrivateMemory}

theorem copyFrom_succ {page : PrivatePage} (found : memory.pages old i = some page) (remaining : ℕ)
 :
 (memory.put new i page).copyFrom old new (i + 1) remaining =
  memory.copyFrom old new i (remaining + 1) := by
 apply PrivateMemory.ext
 · funext other number
   unfold copyFrom put
   dsimp only
   by_cases here : other = new ∧ number = i
   · rw [if_neg (by omega), if_pos here, if_pos ⟨here.1, by omega⟩, here.2, found]
   · by_cases rest : other = new ∧ i + 1 ≤ number ∧ number < i + 1 + remaining
     · have later : ¬ (old = new ∧ number = i) := fun both => by omega
       rw [if_pos rest, if_neg later, if_pos ⟨rest.1, by omega⟩]
     · rw [if_neg rest, if_neg here, if_neg]
       intro all
       by_cases first : number = i
       · exact here ⟨all.1, first⟩
       · exact rest ⟨all.1, by omega⟩
 · rfl

theorem put_unmap (page : PrivatePage) (absent : memory.pages new i = none) :
 (memory.put new i page).unmap new 0 (i + 1) = memory.unmap new 0 i := by
 apply PrivateMemory.ext
 · funext other number
   unfold put unmap
   dsimp only
   by_cases here : other = new ∧ number = i
   · rw [if_pos ⟨here.1, by omega⟩, if_neg (by omega), here.1, here.2, absent]
   · by_cases before : other = new ∧ 0 ≤ number ∧ number < 0 + i
     · rw [if_pos before, if_pos ⟨before.1, by omega⟩]
     · rw [if_neg before, if_neg, if_neg here]
       intro all
       by_cases last : number = i
       · exact here ⟨all.1, last⟩
       · exact before ⟨all.1, by omega⟩
 · rfl

theorem Counted.uvmcopyFrom_view {interior : ℕ → ℕ} {remaining : ℕ}
 (counted : self.Counted pages fresh)
 (copied : Kernel.uvmcopyFrom old new interior i remaining self = some (next, ok)) :
 next.view = if ok then self.view.copyFrom old new i remaining else self.view.unmap new 0 i := by
 induction remaining generalizing i self with
 | zero =>
  cases copied
  exact (copyFrom_zero _ _ _ _).symm
 | succ remaining ih =>
  obtain ⟨pte, state, found, ⟨mapped, later⟩ | ⟨refused, failed, unmapped⟩⟩ :=
   uvmcopyFrom_round copied
  · have kept := counted.copyPte found mapped
    rcases counted.mappages_view found mapped with ⟨impossible, -⟩ | ⟨-, absent, seen⟩
    · cases impossible
    · have referenced : (state.krefpage pte.pa).view = self.view.put new i (self.content pte) :=
       seen
      rw [ih kept later, referenced, copyFrom_succ (view_pages found), put_unmap _ absent]
  · have kept := counted.copyPte_failed found failed
    rcases counted.mappages_view found failed with ⟨-, seen⟩ | ⟨impossible, -⟩
    · rw [kept.uvmunmap_view unmapped, seen, refused]
      rfl
    · cases impossible

theorem Counted.uvmcopy_view {sz : ℕ} {interior : ℕ → ℕ} (counted : self.Counted pages fresh)
 (copied : self.uvmcopy old new sz interior = some (next, ok)) :
 next.view = if ok then self.view.copyFrom old new 0 (pageCount sz) else self.view := by
 rw [counted.uvmcopyFrom_view copied, unmap_zero]

/-! ### Breaking what is shared -/

theorem unmap_put {page : PrivatePage} (found : memory.pages pid va = some page) :
 (memory.unmap pid va 1).put pid va page = memory := by
 apply PrivateMemory.ext
 · funext other number
   unfold put unmap
   dsimp only
   by_cases here : other = pid ∧ number = va
   · rw [if_pos here, here.1, here.2, found]
   · rw [if_neg here, if_neg]
     intro all
     exact here ⟨all.1, by omega⟩
 · rfl

theorem content_unshare (cow : pte.cow) (bytes : self.mem page = next.mem pte.pa) :
 self.content (unshare pte page) = next.content pte := by
 unfold content unshare
 simp_all

variable {result : Kernel × Bool}

section

variable (counted : self.Counted pages fresh)
include counted

theorem Counted.cowCopied_view (found : self.walk pid va = some pte) (cow : pte.cow)
 (copied : CowCopied self pid va pte result) : result.1.view = self.view := by
 cases copied with
 | exhausted twice free => rfl
 | kept once =>
  have page : (self.clearPte pid va).content (unshare pte pte.pa) = self.content pte :=
   content_unshare cow rfl
  rw [view_addPte, view_clearPte, page, unmap_put (view_pages found)]
 | @copies page rest twice free =>
  have isFree : page ∈ self.freelist := free ▸ mem_cons_self
  have different : pte.pa ≠ page := counted.ne_free (mapped_pos (mem_of_walk found)) isFree
  have unchanged : (self.copied pte.pa page rest).view = self.view := by
   refine view_frame ?_ ?_ ?_
   · rfl
   · rfl
   · intro other present
     have notFree := counted.ne_free present isFree
     unfold Kernel.copied
     simp_all
  have bytes : (self.copied pte.pa page rest).mem page = self.mem pte.pa := by
   unfold Kernel.copied
   dsimp only
   rw [update_self, update_of_ne different]
  have content : ((self.copied pte.pa page rest).clearPte pid va).content (unshare pte page) =
   self.content pte := content_unshare cow bytes
  rw [view_addPte, view_clearPte, content, unchanged, unmap_put (view_pages found)]

theorem Counted.owners_mapped (present : 0 < self.mapped page) :
 self.owners page = self.mapped page := by
 have absent : page ∉ self.held := fun member => counted.ne_held present member rfl
 unfold owners
 grind

theorem Counted.pageref_mapped (present : 0 < self.mapped page) :
 self.pageref page = self.mapped page := by
 have owned := counted.owners_mapped present
 rw [counted.pageref (owned ▸ present), owned]

end

def sharedAt (self : Kernel) (pid : Pid) (va : ℕ) : Bool :=
 match self.walk pid (va / pgsize) with
 | some pte => 1 < self.mapped pte.pa
 | none => false

theorem sharedAt_eq (found : self.walk pid (va / pgsize) = some pte) :
 self.sharedAt pid va = decide (1 < self.mapped pte.pa) := by
 unfold sharedAt
 rw [found]

/-- What breaking a page can do: one PTE changes, pages lose PTEs, and a free page is used for
a shared one. -/
structure Broken (state : Kernel) (pid : Pid) (va : ℕ) (next : Kernel) : Prop where
 view : next.view = state.view
 elsewhere : ∀ other, other / pgsize ≠ va / pgsize →
  next.walk pid (other / pgsize) = state.walk pid (other / pgsize)
 mapped : ∀ page, 0 < state.mapped page → next.mapped page ≤ state.mapped page
 free : state.freelist.length ≤
  next.freelist.length + if state.sharedAt pid va then 1 else 0
 alone : (state.sharedAt pid va → state.iscowpage pid va ∧ state.freelist ≠ []) →
  next.sharedAt pid va = false

theorem walk_remap {other : Pte} (different : number ≠ va) :
 ((self.clearPte pid va).addPte pid va other).walk pid number = self.walk pid number := by
 rw [walk_addPte, if_neg fun both => different both.2, walk_clearPte_of,
  if_neg fun both => different both.2]

theorem walk_remap_self {other : Pte} :
 ((self.clearPte pid va).addPte pid va other).walk pid va = some other := by
 rw [walk_addPte, if_pos ⟨rfl, rfl⟩]

theorem Counted.broken_of_cowCopied (counted : self.Counted pages fresh)
 (found : self.walk pid (va / pgsize) = some pte) (cow : pte.cow)
 (copied : CowCopied self pid (va / pgsize) pte result) :
 Broken self pid va result.1 := by
 have present : 0 < self.mapped pte.pa := mapped_pos (mem_of_walk found)
 have count := counted.pageref_mapped present
 have view := counted.cowCopied_view found cow copied
 cases copied with
 | exhausted twice free =>
  refine ⟨view, fun _ _ => rfl, fun _ _ => Nat.le_refl _, Nat.le_add_right _ _, ?_⟩
  intro possible
  have shared : self.sharedAt pid va = true := by
   rw [sharedAt_eq found]
   exact decide_eq_true (by omega)
  exact absurd free (possible shared).2
 | kept once =>
  have same := kept_mapped counted.keys found
  refine ⟨view, fun other different => walk_remap different, ?_, Nat.le_add_right _ _, ?_⟩
  · simp_all
  · intro _
    rw [sharedAt_eq walk_remap_self, same]
    exact decide_eq_false (by dsimp only [unshare]; omega)
 | @copies page rest twice free =>
  have isFree : page ∈ self.freelist := free ▸ mem_cons_self
  have after := counted.copies_mapped found free
  refine ⟨view, ?_, ?_, ?_, ?_⟩
  · intro other different
    exact walk_remap different
  · intro other stillPresent
    have notFree := counted.ne_free stillPresent isFree
    rw [after, update_of_ne notFree]
    by_cases same : other = pte.pa
    · simp_all
    · exact Nat.le_of_eq (update_of_ne same _ _)
  · have shared : self.sharedAt pid va = true := by
     rw [sharedAt_eq found]
     exact decide_eq_true (by omega)
    rw [if_pos shared, free]
    exact Nat.le_refl _
  · intro _
    rw [sharedAt_eq walk_remap_self, after]
    change decide (1 < update (update self.mapped pte.pa
     (self.mapped pte.pa - 1)) page 1 page) = false
    rw [update_self]
    rfl

theorem Counted.broken (counted : self.Counted pages fresh)
 (broken : self.breakCow pid va = some next) : Broken self pid va next := by
 unfold Kernel.breakCow at broken
 split at broken
 · rename_i cow
   obtain ⟨-, pte, found, marked⟩ := iscowpage_eq_true cow
   obtain ⟨result, copied, cases⟩ := uvmcowcopy_cases found
   rw [copied] at broken
   cases broken
   exact counted.broken_of_cowCopied found marked cases
 · rename_i notCow
   cases broken
   refine ⟨rfl, fun _ _ => rfl, fun _ _ => Nat.le_refl _, Nat.le_add_right _ _, ?_⟩
   simp_all

/-! ### `copyout` -/

/-- The addresses at which the loop of `copyout` looks. -/
def stops (dstva : ℕ) : List UInt8 → List ℕ
 | [] => []
 | byte :: rest =>
  dstva :: stops ((dstva / pgsize + 1) * pgsize)
   ((byte :: rest).drop (chunk dstva (byte :: rest)))
 termination_by src => src.length
 decreasing_by exact drop_chunk_length dstva byte rest

/-- `copyout` ends at a page that the process cannot read. -/
def reached (self : Kernel) (pid : Pid) (stops : List ℕ) : List ℕ :=
 stops.takeWhile fun va => (self.walkaddr pid (va / pgsize)).isSome

def CanBreak (self : Kernel) (pid : Pid) (stops : List ℕ) : Prop :=
 (∀ va ∈ self.reached pid stops, self.sharedAt pid va → self.iscowpage pid va) ∧
  (self.reached pid stops).countP (self.sharedAt pid) ≤ self.freelist.length

theorem stops_le (dstva : ℕ) (src : List UInt8) :
 ∀ stop ∈ stops dstva src, dstva / pgsize ≤ stop / pgsize := by
 fun_induction stops dstva src with
 | case1 => simp
 | case2 dstva byte rest ih =>
  intro stop member
  rcases mem_cons.mp member with same | later
  · exact Nat.le_of_eq (same ▸ rfl)
  · have below := ih stop later
    rw [Nat.mul_div_cancel _ (by decide : 0 < pgsize)] at below
    omega

variable {dstva : ℕ} {src : List UInt8}

theorem stops_different :
 ∀ stop ∈ stops ((dstva / pgsize + 1) * pgsize) src, stop / pgsize ≠ dstva / pgsize := by
 intro stop member
 have below := stops_le _ _ stop member
 rw [Nat.mul_div_cancel _ (by decide : 0 < pgsize)] at below
 omega

theorem walkaddr_eq_some :
 self.walkaddr pid number = some page ↔
  ∃ pte, self.walk pid number = some pte ∧ pte.user ∧ pte.pa = page := by
 unfold walkaddr
 cases found : self.walk pid number with
 | none =>
  constructor
  · intro impossible
    cases impossible
  · simp
 | some pte =>
  constructor
  · intro addressed
    split at addressed
    · simp_all
    · cases addressed
  · simp

theorem readable_view (found : self.walk pid (va / pgsize) = some pte) (user : pte.user) :
 self.view.readable pid va = some (self.content pte) := by
 unfold readable
 rw [view_pages found]
 exact filter_some_pos user

theorem readable_view_none (absent : self.walkaddr pid (va / pgsize) = none) :
 self.view.readable pid va = none := by
 unfold readable
 cases found : self.walk pid (va / pgsize) with
 | none =>
  rw [view_pages_none.mpr found]
  rfl
 | some pte =>
  rw [view_pages found]
  apply filter_some_neg
  by_contra user
  have addressed := walkaddr_eq_some.mpr ⟨pte, found, Bool.not_eq_false _ ▸ user, rfl⟩
  rw [absent] at addressed
  cases addressed

theorem reached_congr {stops : List ℕ}
 (same : ∀ stop ∈ stops, next.walk pid (stop / pgsize) = self.walk pid (stop / pgsize)) :
 next.reached pid stops = self.reached pid stops := by
 induction stops with
 | nil => rfl
 | cons stop rest ih =>
  have sameRest := ih fun other member => same other (mem_cons_of_mem _ member)
  have sameHere : next.walkaddr pid (stop / pgsize) = self.walkaddr pid (stop / pgsize) := by
   unfold walkaddr
   rw [same stop mem_cons_self]
  unfold reached at sameRest ⊢
  rw [takeWhile_cons, takeWhile_cons, sameHere, sameRest]

theorem CanBreak.rest {stops : List ℕ} (possible : self.CanBreak pid (va :: stops))
 (broken : Broken self pid va next) (here : (self.walkaddr pid (va / pgsize)).isSome)
 (different : ∀ stop ∈ stops, stop / pgsize ≠ va / pgsize) : next.CanBreak pid stops := by
 obtain ⟨cow, enough⟩ := possible
 have first : self.reached pid (va :: stops) = va :: self.reached pid stops :=
  takeWhile_cons_of_pos here
 rw [first] at cow enough
 have same : ∀ stop ∈ stops, next.walk pid (stop / pgsize) = self.walk pid (stop / pgsize) :=
  fun stop member => broken.elsewhere stop (different stop member)
 have inStops : ∀ stop ∈ self.reached pid stops, stop ∈ stops :=
  fun _ member => (takeWhile_sublist _).subset member
 have shared : ∀ stop ∈ self.reached pid stops, next.sharedAt pid stop →
  self.sharedAt pid stop := by
  intro stop member nextShared
  cases found : self.walk pid (stop / pgsize) with
  | none =>
   unfold sharedAt at nextShared
   simp_all
  | some pte =>
   have nextFound := (same stop (inStops stop member)).trans found
   rw [sharedAt_eq nextFound] at nextShared
   rw [sharedAt_eq found]
   have fewer := broken.mapped pte.pa (mapped_pos (mem_of_walk found))
   grind
 rw [CanBreak, reached_congr same]
 constructor
 · intro stop member nextShared
   have selfCow := cow stop (mem_cons_of_mem _ member) (shared stop member nextShared)
   have size : next.sz = self.sz := congrArg PrivateMemory.sz broken.view
   unfold iscowpage at selfCow ⊢
   simp_all
 · have fewer := countP_mono_left shared
   have free := broken.free
   rw [countP_cons] at enough
   omega

theorem CanBreak.here {stops : List ℕ} (possible : self.CanBreak pid (va :: stops))
 (here : (self.walkaddr pid (va / pgsize)).isSome) (shared : self.sharedAt pid va) :
 self.iscowpage pid va ∧ self.freelist ≠ [] := by
 obtain ⟨cow, enough⟩ := possible
 have first : self.reached pid (va :: stops) = va :: self.reached pid stops :=
  takeWhile_cons_of_pos here
 grind

theorem Counted.copyout_view (counted : self.Counted pages fresh)
 (possible : self.CanBreak pid (stops dstva src))
 (copied : Kernel.copyout pid dstva src self = some (next, ok)) :
 PrivateMemory.copyout pid dstva src self.view = (next.view, ok) := by
 fun_induction Kernel.copyout pid dstva src self with
 | case1 =>
  cases copied
  rw [PrivateMemory.copyout]
 | case2 dstva byte rest self ih =>
  obtain ⟨middle, broken, later⟩ := bind_eq_some_iff.mp copied
  have kept := counted.breakCow broken
  have effect := counted.broken broken
  rw [PrivateMemory.copyout, ← effect.view]
  split at later
  · rename_i absent
    cases later
    rw [readable_view_none absent]
  · rename_i pa found
    obtain ⟨pte, walked, user, samePage⟩ := walkaddr_eq_some.mp found
    subst samePage
    have readable := readable_view walked user
    have here : (self.walkaddr pid (dstva / pgsize)).isSome := by
     by_contra absent
     have unreadable := readable_view_none (not_isSome_iff_eq_none.mp absent)
     rw [← effect.view, readable] at unreadable
     cases unreadable
    rw [stops] at possible
    have alone := effect.alone fun shared => possible.here here shared
    rw [sharedAt_eq walked] at alone
    have once := Nat.not_lt.mp (of_decide_eq_false alone)
    have rest := possible.rest effect here stops_different
    have written := ih middle pte.pa (kept.mem _) rest later
    rw [view_write walked once] at written
    rw [readable]
    exact written

/-! ### Steps -/

/-- No page that a call writes stays shared: there is memory to copy it, and it lies below the
size of the process. -/
def Breakable (self : Kernel) (call : Event × Outcome) : Prop :=
 match call.1 with
 | .store pid va _ =>
  ∀ pte ∈ self.walk pid (va / pgsize), pte.user → pte.cow → va < self.sz pid
 | .copyout pid dstva src => self.CanBreak pid (stops dstva src)
 | _ => True

instance (self : Kernel) (pid : Pid) (stops : List ℕ) : Decidable (self.CanBreak pid stops) :=
 inferInstanceAs (Decidable (_ ∧ _))

instance (self : Kernel) : (call : Event × Outcome) → Decidable (self.Breakable call)
 | (.store pid va _, _) =>
  inferInstanceAs (Decidable
   (∀ pte ∈ self.walk pid (va / pgsize), pte.user → pte.cow → va < self.sz pid))
 | (.copyout pid dstva src, _) =>
  inferInstanceAs (Decidable (self.CanBreak pid (stops dstva src)))
 | (.kalloc, _) => isTrue trivial
 | (.kfree _, _) => isTrue trivial
 | (.map .., _) => isTrue trivial
 | (.setSz .., _) => isTrue trivial
 | (.fork .., _) => isTrue trivial
 | (.uvmunmap .., _) => isTrue trivial
 | (.load .., _) => isTrue trivial

theorem Counted.walkAlloc_mem (counted : state.Counted pages fresh) (owned : 0 < state.owners page)
 (interior : ℕ) :
 (Kernel.walkAlloc interior state).1.mem page = state.mem page := by
 induction interior generalizing state with
 | zero => rfl
 | succ interior ih =>
  unfold Kernel.walkAlloc
  cases allocated : state.kalloc with
  | none => rfl
  | some both =>
   obtain ⟨new, next⟩ := both
   have kept := counted.hold allocated
   obtain ⟨rest, free, same⟩ := kalloc_some allocated
   have unowned := counted.unowned_free (free ▸ mem_cons_self)
   have different : page ≠ new := by
    intro samePage
    rw [samePage, unowned] at owned
    exact Nat.lt_irrefl 0 owned
   subst same
   have still : 0 < owners { state with
    freelist := rest
    mem := update state.mem new fun _ => 5
    pageref := update state.pageref new 1
    held := new :: state.held } page := by
    apply Nat.lt_of_lt_of_le owned
    apply Nat.add_le_add_left
    exact count_le_count_cons
   simp_all

section

variable (counted : self.Counted pages fresh)
include counted

theorem Counted.cleared_view (member : page ∈ self.held) :
 view { self with mem := update self.mem page fun _ => 0 } = self.view := by
 refine view_frame ?_ ?_ ?_
 · rfl
 · rfl
 · intro other present
   exact update_of_ne (counted.ne_held present member) _ _

theorem Counted.map_view {interior : ℕ} {writable user : Bool} (member : page ∈ self.held)
 (added : mappages { self with mem := update self.mem page fun _ => 0 } pid va
  ⟨page, writable, user, false⟩ interior = some (next, ok)) :
 (ok = false ∧ next.view = self.view) ∨
  (ok = true ∧ self.view.pages pid va = none ∧
   next.view = self.view.put pid va ⟨fun _ => 0, user, writable⟩) := by
 have cleared := counted.mem (update self.mem page fun _ => 0)
 have allocated := (cleared.walkAlloc_view interior).trans (counted.cleared_view member)
 rcases mappages_some added with ⟨refused, sameNext⟩ | ⟨taken, absent, sameNext⟩
 · simp_all
 · subst sameNext
   refine .inr ⟨taken, ?_, ?_⟩
   · rw [← allocated]
     exact view_pages_none.mpr absent
   · have owned : 0 < owners { self with mem := update self.mem page fun _ => 0 } page :=
      Nat.lt_of_lt_of_le (count_pos_iff.mpr member) (Nat.le_add_left _ _)
     have bytes := cleared.walkAlloc_mem owned interior
     have blank : (Kernel.walkAlloc interior
      { self with mem := update self.mem page fun _ => 0 }).1.content
       ⟨page, writable, user, false⟩ = ⟨fun _ => 0, user, writable⟩ := by
      unfold content
      rw [bytes, Bool.or_false]
      dsimp only
      rw [update_self]
     rw [view_addPte, allocated, blank]

theorem Counted.pageFault_view (handled : Kernel.pageFault self pid va = some result) :
 result.1.view = self.view := by
 unfold Kernel.pageFault at handled
 split at handled
 · rename_i cow
   obtain ⟨-, pte, found, marked⟩ := iscowpage_eq_true cow
   obtain ⟨other, copied, cases⟩ := uvmcowcopy_cases found
   rw [handled] at copied
   cases copied
   exact counted.cowCopied_view found marked cases
 · cases handled
   rfl

end

theorem store_view (found : self.walk pid (va / pgsize) = some pte) (user : pte.user)
 (writable : pte.writable) (once : self.mapped pte.pa ≤ 1) (byte : UInt8) :
 self.view.store pid va byte =
  some (view { self with
   mem := update self.mem pte.pa
    (update (self.mem pte.pa) (va % pgsize) byte) }) := by
 have allowed : self.view.writable pid va = some (self.content pte) := by
  unfold PrivateMemory.writable
  rw [readable_view found user]
  apply filter_some_pos
  unfold content
  rw [writable, Bool.true_or]
 unfold store
 rw [allowed, view_write found once]
 rfl

theorem load_view (found : self.walk pid (va / pgsize) = some pte) (user : pte.user) :
 self.view.load pid va = some (self.mem pte.pa (va % pgsize)) := by
 unfold load
 rw [readable_view found user]
 rfl

theorem Counted.writable_once (counted : self.Counted pages fresh)
 (found : self.walk pid va = some pte) (writable : pte.writable) : self.mapped pte.pa ≤ 1 := by
 by_contra twice
 have unwritable := counted.unshared _ (mem_of_walk found) (Nat.not_le.mp twice)
 rw [writable] at unwritable
 cases unwritable

theorem step_copyout (copied : PrivateMemory.copyout pid va src self.view = (memory, ok)) :
 self.view.step (.copyout pid va src, .ofBool ok) = some memory := by
 dsimp only [PrivateMemory.step]
 rw [copied]
 exact if_pos rfl

theorem Counted.performs_view {call : Event × Outcome} (counted : self.Counted pages fresh)
 (breakable : self.Breakable call) (taken : Kernel.performs self call next) :
 self.view.step call = some next.view := by
 obtain ⟨event, outcome⟩ := call
 cases performed taken with
 | exhausted none => rfl
 | kalloc allocated => exact congrArg some (counted.kalloc_view allocated).symm
 | kfree member => exact congrArg some (counted.kfree_view member).symm
 | @map pid va interior page writable user next member added =>
  rcases counted.map_view member added with ⟨impossible, -⟩ | ⟨-, absent, seen⟩
  · cases impossible
  · have unmapped : (self.view.pages pid va).isNone = true := by
     rw [absent]
     rfl
    dsimp only [PrivateMemory.step]
    rw [if_pos unmapped, seen.symm]
    rfl
 | mapFailed member added =>
  rcases counted.map_view member added with ⟨-, seen⟩ | ⟨impossible, -, -⟩
  · exact congrArg some seen.symm
  · cases impossible
 | setSz pid sz => rfl
 | @fork parent child interior next copied =>
  have seen := counted.uvmcopy_view copied
  have size : next.sz = self.sz := congrArg PrivateMemory.sz seen
  have forked : view { next with sz := update next.sz child (next.sz parent) } =
   next.view.setSz child (next.sz parent) := rfl
  rw [forked, seen, size]
  rfl
 | forkFailed copied => exact congrArg some (counted.uvmcopy_view copied).symm
 | uvmunmap unmapped => exact congrArg some (counted.uvmunmap_view unmapped).symm
 | load found user => exact if_pos (load_view found user)
 | loadTrapped handled => exact congrArg some (counted.pageFault_view handled).symm
 | loadKilled handled => exact congrArg some (counted.pageFault_view handled).symm
 | store found user writable =>
  exact store_view found user writable (counted.writable_once found writable) _
 | storeTrapped handled => exact congrArg some (counted.pageFault_view handled).symm
 | storeKilled handled => exact congrArg some (counted.pageFault_view handled).symm
 | copyout copied => exact step_copyout (counted.copyout_view breakable copied)
 | copyoutFailed copied => exact step_copyout (counted.copyout_view breakable copied)

/-! ### Faults -/

theorem permits_load (permitted : self.view.Permits (.load pid va)) :
 ∃ pte, self.walk pid (va / pgsize) = some pte ∧ pte.user := by
 obtain ⟨page, readable⟩ := isSome_iff_exists.mp permitted
 obtain ⟨present, user⟩ := filter_eq_some_iff.mp readable
 obtain ⟨pte, found, same⟩ := map_eq_some_iff.mp present
 subst same
 exact ⟨pte, found, user⟩

variable {byte : UInt8}

theorem permits_store (permitted : self.view.Permits (.store pid va byte)) :
 ∃ pte, self.walk pid (va / pgsize) = some pte ∧ pte.user ∧ (pte.writable || pte.cow) := by
 obtain ⟨page, writable⟩ := isSome_iff_exists.mp permitted
 obtain ⟨readable, flag⟩ := filter_eq_some_iff.mp writable
 obtain ⟨present, user⟩ := filter_eq_some_iff.mp readable
 obtain ⟨pte, found, same⟩ := map_eq_some_iff.mp present
 subst same
 exact ⟨pte, found, user, flag⟩

theorem pageFault_killed (handled : self.pageFault pid va = some (next, false)) :
 next = self ∧ (self.iscowpage pid va = true → self.freelist = []) := by
 unfold pageFault at handled
 split at handled
 · rename_i cow
   obtain ⟨-, pte, found, -⟩ := iscowpage_eq_true cow
   obtain ⟨result, copied, cases⟩ := uvmcowcopy_cases found
   rw [handled] at copied
   cases copied
   cases cases with
   | exhausted twice free => exact ⟨rfl, fun _ => free⟩
 · simp_all

theorem step_load (found : self.walk pid (va / pgsize) = some pte) (user : pte.user) :
 self.step (.load pid va) = some (self, .value (self.mem pte.pa (va % pgsize))) := by
 dsimp only [step]
 rw [found]
 exact if_pos user

theorem step_store (found : self.walk pid (va / pgsize) = some pte) (user : pte.user)
 (writable : pte.writable) (byte : UInt8) :
 ∃ next, self.performs (.store pid va byte, .done) next := by
 unfold performs
 dsimp only [step]
 simp_all

variable {event : Event}

theorem performs_unique {first second : Outcome} {other : Kernel}
 (performed : self.performs (event, first) next) (again : self.performs (event, second) other) :
 first = second :=
 (Prod.mk.inj (some.inj (performed.symm.trans again))).2

theorem Breakable.iscowpage {outcome : Outcome}
 (breakable : self.Breakable (.store pid va byte, outcome))
 (found : self.walk pid (va / pgsize) = some pte) (user : pte.user) (cow : pte.cow) :
 self.iscowpage pid va = true := by
 unfold Kernel.iscowpage
 rw [found]
 exact decide_eq_true ⟨breakable pte found user cow, cow⟩

theorem store_cow {outcome : Outcome} (undone : outcome ≠ .done)
 (breakable : self.Breakable (.store pid va byte, outcome))
 (performed : self.performs (.store pid va byte, outcome) next)
 (permitted : self.view.Permits (.store pid va byte)) :
 self.iscowpage pid va = true ∧
  ∃ pte, self.walk pid (va / pgsize) = some pte ∧ pte.user := by
 obtain ⟨pte, found, user, flag⟩ := permits_store permitted
 by_cases writable : pte.writable
 · obtain ⟨other, done⟩ := step_store found user writable byte
   exact absurd (performs_unique performed done) undone
 · rw [Bool.eq_false_iff.mpr writable, Bool.false_or] at flag
   exact ⟨breakable.iscowpage found user flag, pte, found, user⟩

theorem killed (breakable : self.Breakable (event, .killed))
 (taken : self.performs (event, .killed) next) :
 next = self ∧ (¬ self.view.Permits event ∨ self.freelist = []) := by
 cases performed taken with
 | loadKilled handled =>
  refine ⟨(pageFault_killed handled).1, .inl ?_⟩
  intro permitted
  obtain ⟨pte, found, user⟩ := permits_load permitted
  cases taken.symm.trans (step_load found user)
 | @storeKilled pid va byte next handled =>
  obtain ⟨same, exhausted⟩ := pageFault_killed handled
  refine ⟨same, ?_⟩
  by_cases permitted : self.view.Permits (.store pid va byte)
  · exact .inr (exhausted (store_cow (by decide) breakable taken permitted).1)
  · exact .inl permitted

theorem trapped (breakable : self.Breakable (event, .trapped)) (permitted : self.view.Permits event)
 (taken : self.performs (event, .trapped) next) :
 ∃ final, next.performs (event, .done) final := by
 cases performed taken with
 | loadTrapped handled =>
  obtain ⟨pte, found, user⟩ := permits_load permitted
  cases taken.symm.trans (step_load found user)
 | @storeTrapped pid va byte next handled =>
  obtain ⟨cow, pte, found, user⟩ := store_cow (by decide) breakable taken permitted
  obtain ⟨result, copied, cases⟩ := uvmcowcopy_cases found
  unfold pageFault at handled
  rw [if_pos cow, copied] at handled
  cases handled
  cases cases with
  | kept once =>
   have flag : (unshare pte pte.pa).user := user
   exact step_store walk_remap_self flag rfl byte
  | @copies page rest twice free =>
   have flag : (unshare pte page).user := user
   exact step_store walk_remap_self flag rfl byte

/-! ### Runs -/

theorem kinit_ptes (mem : Page → ℕ → UInt8) (pages : List Page) :
 (kinit mem pages).ptes = [] ∧ (kinit mem pages).sz = fun _ => 0 := by
 have kept (freed : List Page) (state : Kernel) :
  (freed.foldl kfree state).ptes = state.ptes ∧ (freed.foldl kfree state).sz = state.sz := by
  induction freed generalizing state with
  | nil => exact ⟨rfl, rfl⟩
  | cons page rest ih =>
   obtain ⟨-, -, ptes, -, sz⟩ := kfree_eq state page
   simp_all
 exact kept pages (boot mem)

theorem kinit_view (mem : Page → ℕ → UInt8) (pages : List Page) :
 (kinit mem pages).view = .empty := by
 obtain ⟨ptes, sz⟩ := kinit_ptes mem pages
 apply PrivateMemory.ext
 · funext pid va
   unfold view walk
   rw [ptes]
   rfl
 · exact sz

theorem run_view {mem : Page → ℕ → UInt8} (nodup : pages.Nodup) {calls : List (Event × Outcome)}
 (run : Run (Guarded Breakable performs) (kinit mem pages) calls state) :
 Run (ofFunction PrivateMemory.step) .empty calls state.view := by
 induction run with
 | nil =>
  rw [kinit_view]
  exact .nil
 | snoc before taken ih =>
  have counted := reachable_counted nodup before.of_guarded
  exact .snoc ih (counted.performs_view taken.1 taken.2)

theorem cow_isolates {mem : Page → ℕ → UInt8} (nodup : pages.Nodup)
 {calls : List (Event × Outcome)} {state : Kernel}
 (run : Run (Guarded Breakable performs) (kinit mem pages) calls state) :
 Run (ofFunction PrivateMemory.step) .empty calls state.view ∧
  ∀ call next, state.Breakable call → state.performs call next →
   (∀ pid, writer call.1 = some pid → ∀ other, other ≠ pid →
    next.view.pages other = state.view.pages other) ∧
   (call.2 = .killed →
    next = state ∧ (¬ state.view.Permits call.1 ∨ state.freelist = [])) ∧
   (call.2 = .trapped → state.view.Permits call.1 →
    ∃ final, next.performs (call.1, .done) final) := by
 refine ⟨run_view nodup run, ?_⟩
 have counted := reachable_counted nodup run.of_guarded
 intro call next breakable taken
 obtain ⟨event, outcome⟩ := call
 refine ⟨?_, ?_, ?_⟩
 · intro pid writes other different
   exact step_other (counted.performs_view breakable taken) writes different
 · intro killed
   cases killed
   exact killed breakable taken
 · intro trapped permitted
   cases trapped
   exact trapped breakable permitted taken

/-- The child stores to the page that it shares with its parent. -/
def storeCalls : List (Event × Outcome) :=
 forkCalls ++ [(.store 1 0 9, .trapped), (.store 1 0 9, .done), (.load 0 0, .value 0)]

theorem storeCalls_run : ∃ state,
 Run (Guarded Breakable performs) (kinit (fun _ _ => 0) [0, 1, 2]) storeCalls state := by
 have replayed : ∃ state, replay (restrict Breakable answers) (kinit (fun _ _ => 0) [0, 1, 2])
  storeCalls = some state := ⟨_, rfl⟩
 obtain ⟨state, ran⟩ := replayed
 exact ⟨state, (Run.of_replay ran).mono fun _ _ _ taken =>
  ⟨taken.1, performs_of_answers taken.2⟩⟩

theorem cow_isolates_store : ∃ state,
 Run (Guarded Breakable performs) (kinit (fun _ _ => 0) [0, 1, 2]) storeCalls state ∧
  Run (ofFunction PrivateMemory.step) .empty storeCalls state.view := by
 obtain ⟨state, run⟩ := storeCalls_run
 exact ⟨state, run, (cow_isolates (by decide) run).1⟩

theorem copyout_byte (broken : self.breakCow pid dstva = some next)
 (found : next.walkaddr pid (dstva / pgsize) = some page) (byte : UInt8) :
 copyout pid dstva [byte] self =
  some ({ next with
   mem := update next.mem page
    (writeBytes (next.mem page) (dstva % pgsize) [byte]) }, true) := by
 have below : dstva % pgsize < pgsize := Nat.mod_lt _ (by decide)
 have one : chunk dstva [byte] = 1 := Nat.min_eq_right (by rw [length_singleton]; omega)
 rw [copyout, broken, bind_some, found]
 rw [one]
 change copyout pid ((dstva / pgsize + 1) * pgsize) [] _ = _
 rw [copyout]
 rfl

/-- A process of one page forks when no other page is free. -/
def exhaustedCalls : List (Event × Outcome) :=
 [(.kalloc, .done), (.map 0 0 1 true true 0, .done), (.setSz 0 pgsize, .done),
  (.fork 0 1 fun _ => 0, .done), (.kalloc, .done)]

theorem exhausted_run : ∃ state,
 Run performs (kinit (fun _ _ => 0) [0, 1]) (exhaustedCalls ++ [(.copyout 1 0 [7], .done)] ++
  [(.load 0 0, .value 7)]) state := by
 have replayed : ∃ state, replay answers (kinit (fun _ _ => 0) [0, 1]) exhaustedCalls = some state ∧
  state.breakCow 1 0 = some state ∧ state.walkaddr 1 (0 / pgsize) = some 1 ∧
  state.walk 0 (0 / pgsize) = some ⟨1, false, true, true⟩ := ⟨_, rfl, rfl, rfl, rfl⟩
 obtain ⟨state, ran, broken, child, parent⟩ := replayed
 have copied := copyout_byte broken child 7
 have written : performs state (.copyout 1 0 [7], .done)
  { state with
   mem := update state.mem 1 (writeBytes (state.mem 1) (0 % pgsize) [7]) } :=
  congrArg (Option.map _) copied
 have still : walk { state with
  mem := update state.mem 1 (writeBytes (state.mem 1) (0 % pgsize) [7]) } 0
   (0 / pgsize) = some ⟨1, false, true, true⟩ := parent
 exact ⟨_, .snoc (.snoc (run_of_replay ran) written) (step_load still rfl)⟩

/-- The child gets no page of its own, and the parent reads what was written for the child. -/
theorem copyout_writes_shared : ¬ ∀ (mem : Page → ℕ → UInt8) (pages : List Page)
 (calls : List (Event × Outcome)) (state : Kernel), pages.Nodup →
  Run performs (kinit mem pages) calls state →
   Run (ofFunction PrivateMemory.step) .empty calls state.view := by
 intro refines
 obtain ⟨state, run⟩ := exhausted_run
 obtain ⟨middle, before, loaded⟩ := (refines _ _ _ state (by decide) run).last
 obtain ⟨start, earlier, written⟩ := before.last
 have replayed : ∃ memory, replay PrivateMemory.step .empty exhaustedCalls = some memory ∧
  memory.load 0 0 = some 0 := ⟨_, rfl, rfl⟩
 obtain ⟨memory, ran, zero⟩ := replayed
 have same := earlier.unique (Run.of_replay_all ran)
 have kept : middle.pages 0 = start.pages 0 :=
  step_other written rfl (by decide)
 rw [same] at kept
 have unchanged : middle.load 0 0 = some 0 := (load_congr kept).trans zero
 dsimp only [ofFunction, PrivateMemory.step] at loaded
 rw [if_neg (by rw [unchanged]; decide)] at loaded
 cases loaded

end MyNotes.Xv6.Kernel
