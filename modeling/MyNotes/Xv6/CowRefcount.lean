/-
Reference counts of the copy-on-write lab.

The owners of a physical page are the PTEs that map it, and the kernel while it holds the
page itself.  Every step keeps `pageref` and the free list in line with the owners.
-/

import MyNotes.Library.Transition
import MyNotes.Library.ReferenceCount
import MyNotes.Xv6.PageTable

namespace MyNotes.Xv6.Kernel

open Library.Transition Function List
open Library.ReferenceCount

def owners (self : Kernel) (page : Page) : ℕ := self.mapped page + self.held.count page

structure Counted (pages : List Page) (fresh : Page → Prop) (state : Kernel) : Prop where
 tallied : Tallied pages fresh state.owners state.pageref state.freelist
 /-- A page that the kernel holds has no other owner. -/
 held_once : ∀ page ∈ state.held, state.owners page = 1
 unshared : ∀ mapping ∈ state.ptes, 1 < state.mapped mapping.pte.pa →
  mapping.pte.writable = false
 keys : state.Keyed

variable {self : Kernel} {pid : Pid} {va : ℕ} {pte : Pte}

/-! ### Owners -/

theorem owners_hold (self : Kernel) (page : Page) :
 owners { self with held := page :: self.held } =
  update self.owners page (self.owners page + 1) := by
 funext other
 unfold owners mapped
 rw [count_cons]
 by_cases same : other = page
 · grind
 · rw [update_of_ne same, if_neg (by simpa using Ne.symm same)]
   rfl

theorem owners_unhold (self : Kernel) {page : Page} (member : page ∈ self.held) :
 owners { self with held := self.held.erase page } =
  update self.owners page (self.owners page - 1) := by
 funext other
 unfold owners mapped
 by_cases same : other = page
 · grind
 · simp_all

theorem owners_addPte : (self.addPte pid va pte).owners =
 update self.owners pte.pa (self.owners pte.pa + 1) := by
 funext page
 unfold owners
 rw [mapped_addPte]
 by_cases same : page = pte.pa
 · subst same
   rw [update_self, update_self]
   change self.mapped pte.pa + 1 + self.held.count pte.pa = _
   omega
 · rw [update_of_ne same, update_of_ne same]
   rfl

theorem owners_clearPte (keys : self.Keyed) (found : self.walk pid va = some pte) :
 (self.clearPte pid va).owners =
  update self.owners pte.pa (self.owners pte.pa - 1) := by
 have present := mapped_pos (mem_of_walk found)
 funext page
 unfold owners
 rw [mapped_clearPte keys found]
 by_cases same : page = pte.pa
 · subst same
   rw [update_self, update_self]
   change self.mapped pte.pa - 1 + self.held.count pte.pa = _
   dsimp only at present
   omega
 · rw [update_of_ne same, update_of_ne same]
   rfl

theorem owners_setPte (keys : self.Keyed) {old : Pte} (found : self.walk pid va = some old)
 (samePage : pte.pa = old.pa) : (self.setPte pid va pte).owners = self.owners := by
 funext page
 unfold owners
 rw [mapped_setPte keys found samePage]
 rfl

theorem owners_pos_of_walk (found : self.walk pid va = some pte) : 0 < self.owners pte.pa :=
 Nat.lt_of_lt_of_le (mapped_pos (mem_of_walk found)) (Nat.le_add_right _ _)

/-! ### Allocation -/

variable {pages : List Page} {fresh : Page → Prop} {page : Page} {next : Kernel}

theorem kalloc_some (allocated : self.kalloc = some (page, next)) :
 ∃ rest, self.freelist = page :: rest ∧ next =
  { self with
   freelist := rest
   mem := update self.mem page fun _ => 5
   pageref := update self.pageref page 1 } := by
 unfold kalloc at allocated
 split at allocated
 · cases allocated
 · grind

section

variable (counted : self.Counted pages fresh)
include counted

theorem Counted.pageref (positive : 0 < self.owners page) : self.pageref page = self.owners page :=
 (counted.tallied.owned page positive).1

theorem Counted.unowned_free (free : page ∈ self.freelist) : self.owners page = 0 :=
 ((counted.tallied.mem_free page).mp free).2

theorem Counted.unmapped_free (free : page ∈ self.freelist) : self.mapped page = 0 := by
 have unowned := counted.unowned_free free
 unfold owners at unowned
 omega

theorem Counted.ne_free {other : Page} (present : 0 < self.mapped other)
 (free : page ∈ self.freelist) : other ≠ page := by
 intro same
 rw [same, counted.unmapped_free free] at present
 exact Nat.lt_irrefl 0 present

theorem Counted.unmapped_held (member : page ∈ self.held) : self.mapped page = 0 := by
 have once := counted.held_once page member
 have present := count_pos_iff.mpr member
 unfold owners at once
 omega

theorem Counted.ne_held {other : Page} (present : 0 < self.mapped other)
 (member : page ∈ self.held) : other ≠ page := by
 intro same
 rw [same, counted.unmapped_held member] at present
 exact Nat.lt_irrefl 0 present

theorem Counted.hold (allocated : self.kalloc = some (page, next)) :
 Counted pages fresh { next with held := page :: next.held } := by
 obtain ⟨rest, free, same⟩ := kalloc_some allocated
 subst same
 have unowned : self.owners page = 0 := counted.unowned_free (free ▸ mem_cons_self)
 have owned := owners_hold { self with
  freelist := rest
  mem := update self.mem page fun _ => 5
  pageref := update self.pageref page 1 } page
 change _ = update self.owners page (self.owners page + 1) at owned
 rw [unowned] at owned
 constructor
 · rw [owned]
   have tallied := counted.tallied
   rw [free] at tallied
   exact tallied.take
 · intro other member
   rw [owned]
   rcases mem_cons.mp member with same | old
   · rw [same, update_self]
   · have once := counted.held_once other old
     grind
 · exact counted.unshared
 · exact counted.keys

end

theorem walkAlloc_frame (interior : ℕ) (state : Kernel) :
 (walkAlloc interior state).1.ptes = state.ptes ∧ (walkAlloc interior state).1.sz = state.sz ∧
  ∀ page ∈ state.held, page ∈ (walkAlloc interior state).1.held := by
 induction interior generalizing state with
 | zero => exact ⟨rfl, rfl, fun _ member => member⟩
 | succ interior ih =>
  unfold walkAlloc
  cases allocated : state.kalloc with
  | none => exact ⟨rfl, rfl, fun _ member => member⟩
  | some both =>
   obtain ⟨rest, -, same⟩ := kalloc_some allocated
   simp_all

theorem Counted.walkAlloc {state : Kernel} (counted : state.Counted pages fresh) (interior : ℕ) :
 (walkAlloc interior state).1.Counted pages fresh := by
 induction interior generalizing state with
 | zero => exact counted
 | succ interior ih =>
  unfold Kernel.walkAlloc
  cases allocated : state.kalloc with
  | none => exact counted
  | some both => exact ih (counted.hold allocated)

theorem kfree_eq (self : Kernel) (page : Page) :
 (self.kfree page).pageref = update self.pageref page (self.pageref page - 1) ∧
  (self.kfree page).freelist =
   (if self.pageref page - 1 ≤ 0 then page :: self.freelist else self.freelist) ∧
  (self.kfree page).ptes = self.ptes ∧ (self.kfree page).held = self.held ∧
  (self.kfree page).sz = self.sz := by
 unfold kfree
 grind

section

variable (counted : self.Counted pages fresh)
include counted

theorem Counted.kfree_held (member : page ∈ self.held) :
 (kfree { self with held := self.held.erase page } page).Counted pages fresh := by
 obtain ⟨pageref, freelist, ptes, held, -⟩ :=
  kfree_eq { self with held := self.held.erase page } page
 have once := counted.held_once page member
 have owned : (kfree { self with held := self.held.erase page } page).owners =
  update self.owners page (self.owners page - 1) := by
  rw [← owners_unhold self member]
  unfold owners mapped
  rw [ptes, held]
 constructor
 · rw [owned, pageref, freelist]
   exact counted.tallied.release (once ▸ Nat.one_pos)
 · intro other inHeld
   rw [held] at inHeld
   have old := mem_of_mem_erase inHeld
   rw [owned, update_of_ne, counted.held_once other old]
   intro same
   subst other
   have twice := count_pos_iff.mpr inHeld
   rw [count_erase_self] at twice
   unfold owners at once
   omega
 · unfold mapped
   rw [ptes]
   exact counted.unshared
 · unfold Keyed
   rw [ptes]
   exact counted.keys

/-! ### Mapping -/

theorem Counted.map_held (absent : self.walk pid va = none) (member : pte.pa ∈ self.held) :
 Counted pages fresh { self.addPte pid va pte with held := self.held.erase pte.pa } := by
 have unmapped := counted.unmapped_held member
 have owned : owners { self.addPte pid va pte with held := self.held.erase pte.pa } =
  self.owners := by
  have removed := owners_unhold (self.addPte pid va pte) member
  refine removed.trans ?_
  rw [owners_addPte, update_self, update_idem, Nat.add_sub_cancel,
   update_eq_self]
 constructor
 · rw [owned]
   exact counted.tallied
 · intro other inHeld
   rw [owned]
   exact counted.held_once other (mem_of_mem_erase inHeld)
 · intro mapping inPtes twice
   change 1 < (self.addPte pid va pte).mapped mapping.pte.pa at twice
   rw [mapped_addPte] at twice
   rcases mem_cons.mp inPtes with new | old
   · simp_all
   · have present := mapped_pos old
     have different : mapping.pte.pa ≠ pte.pa := by
      intro same
      rw [same, unmapped] at present
      omega
     rw [update_of_ne different] at twice
     exact counted.unshared mapping old twice
 · exact keys_addPte counted.keys absent

theorem Counted.share (absent : self.walk pid va = none) (positive : 0 < self.mapped pte.pa)
 (unwritable : pte.writable = false)
 (others : ∀ mapping ∈ self.ptes, mapping.pte.pa = pte.pa → mapping.pte.writable = false) :
 ((self.addPte pid va pte).krefpage pte.pa).Counted pages fresh := by
 have owned : ((self.addPte pid va pte).krefpage pte.pa).owners =
  update self.owners pte.pa (self.owners pte.pa + 1) := owners_addPte
 have ownedPositive : 0 < self.owners pte.pa :=
  Nat.lt_of_lt_of_le positive (Nat.le_add_right _ _)
 constructor
 · rw [owned]
   exact counted.tallied.share ownedPositive
 · intro other inHeld
   have different := counted.ne_held positive inHeld
   rw [owned, update_of_ne different.symm, counted.held_once other inHeld]
 · intro mapping inPtes twice
   change 1 < (self.addPte pid va pte).mapped mapping.pte.pa at twice
   rw [mapped_addPte] at twice
   rcases mem_cons.mp inPtes with new | old
   · rw [new]
     exact unwritable
   · by_cases same : mapping.pte.pa = pte.pa
     · exact others mapping old same
     · rw [update_of_ne same] at twice
       exact counted.unshared mapping old twice
 · exact keys_addPte counted.keys absent

theorem Counted.unmap (found : self.walk pid va = some pte) :
 ((self.kfree pte.pa).clearPte pid va).Counted pages fresh := by
 obtain ⟨pageref, freelist, ptes, held, -⟩ := kfree_eq self pte.pa
 have owned : ((self.kfree pte.pa).clearPte pid va).owners =
  update self.owners pte.pa (self.owners pte.pa - 1) := by
  rw [← owners_clearPte counted.keys found]
  unfold owners mapped clearPte
  rw [ptes, held]
 have remaining : ((self.kfree pte.pa).clearPte pid va).ptes = (self.clearPte pid va).ptes := by
  unfold clearPte
  rw [ptes]
 constructor
 · rw [owned]
   change Tallied pages fresh _ (self.kfree pte.pa).pageref (self.kfree pte.pa).freelist
   rw [pageref, freelist]
   exact counted.tallied.release (owners_pos_of_walk found)
 · intro other inHeld
   change other ∈ (self.kfree pte.pa).held at inHeld
   rw [held] at inHeld
   have different : pte.pa ≠ other := counted.ne_held (mapped_pos (mem_of_walk found)) inHeld
   rw [owned, update_of_ne different.symm, counted.held_once other inHeld]
 · intro mapping inPtes twice
   rw [remaining] at inPtes
   apply counted.unshared mapping (mem_of_mem_filter inPtes)
   unfold mapped at twice ⊢
   rw [remaining] at twice
   exact Nat.lt_of_lt_of_le twice (List.Sublist.countP_le filter_sublist)
 · unfold Keyed
   rw [remaining]
   exact keys_clearPte counted.keys

end

variable {npages : ℕ}

theorem uvmunmap_round {doFree : Bool}
 (unmapped : uvmunmap pid doFree va (npages + 1) self = some next) :
 ∃ pte, self.walk pid va = some pte ∧
  uvmunmap pid doFree (va + 1) npages
   ((if doFree then self.kfree pte.pa else self).clearPte pid va) = some next := by
 unfold uvmunmap at unmapped
 split at unmapped
 · cases unmapped
 · simp_all

theorem Counted.uvmunmap (counted : self.Counted pages fresh)
 (unmapped : uvmunmap pid true va npages self = some next) : next.Counted pages fresh := by
 induction npages generalizing va self with
 | zero =>
  cases unmapped
  exact counted
 | succ npages ih =>
  obtain ⟨pte, found, later⟩ := uvmunmap_round unmapped
  exact ih (counted.unmap found) later

/-! ### `uvmcopy` -/

variable {interior : ℕ} {ok : Bool}

theorem mappages_some (mapped : self.mappages pid va pte interior = some (next, ok)) :
 (ok = false ∧ next = (walkAlloc interior self).1) ∨
  (ok = true ∧ (walkAlloc interior self).1.walk pid va = none ∧
   next = (walkAlloc interior self).1.addPte pid va pte) := by
 unfold mappages at mapped
 cases allocated : walkAlloc interior self with
 | mk state enough =>
  rw [allocated] at mapped
  cases enough with
  | false =>
   simp_all
  | true =>
   dsimp only at mapped
   split at mapped
   · cases mapped
   · simp_all

theorem Counted.markShared (counted : self.Counted pages fresh)
 (found : self.walk pid va = some pte) :
 (self.markShared pid va pte).Counted pages fresh ∧
  (self.markShared pid va pte).mapped = self.mapped ∧
  ∀ mapping ∈ (self.markShared pid va pte).ptes, mapping.pte.pa = pte.pa →
   mapping.pte.writable = false := by
 have member := mem_of_walk found
 unfold Kernel.markShared
 by_cases writable : pte.writable
 · rw [if_pos writable]
   have same := mapped_setPte counted.keys found (shared_pa pte)
   have once : self.mapped pte.pa ≤ 1 := by
    by_contra twice
    have unwritable := counted.unshared ⟨pid, va, pte⟩ member (by dsimp only; omega)
    rw [writable] at unwritable
    cases unwritable
   have alone : ∀ mapping ∈ (self.setPte pid va (shared pte)).ptes, mapping.pte.pa = pte.pa →
    mapping.pte.writable = false := by
    intro mapping inPtes samePage
    rcases mem_setPte.mp inPtes with ⟨old, different⟩ | ⟨new, -⟩
    · have equal := eq_of_mapped_le_one member old samePage once
      simp_all
    · rw [new]
      exact shared_unwritable pte
   refine ⟨⟨?_, ?_, ?_, keys_setPte counted.keys⟩, same, alone⟩
   · rw [owners_setPte counted.keys found (shared_pa pte)]
     exact counted.tallied
   · rw [owners_setPte counted.keys found (shared_pa pte)]
     exact counted.held_once
   · intro mapping inPtes twice
     rw [same] at twice
     rcases mem_setPte.mp inPtes with ⟨old, -⟩ | ⟨new, -⟩
     · exact counted.unshared mapping old twice
     · rw [new]
       exact shared_unwritable pte
 · rw [if_neg writable]
   refine ⟨counted, rfl, ?_⟩
   intro mapping inPtes samePage
   by_cases once : self.mapped pte.pa ≤ 1
   · rw [eq_of_mapped_le_one member inPtes samePage once]
     exact Bool.not_eq_true _ ▸ writable
   · exact counted.unshared mapping inPtes (by rw [samePage]; omega)

variable {old new : Pid} {i : ℕ}

theorem Counted.copyPte (counted : self.Counted pages fresh) (found : self.walk old i = some pte)
 (copied : (self.markShared old i pte).mappages new i (shared pte) interior =
  some (next, true)) : (next.krefpage pte.pa).Counted pages fresh := by
 obtain ⟨marked, sameMapped, unwritable⟩ := counted.markShared found
 rcases mappages_some copied with ⟨impossible, -⟩ | ⟨-, absent, added⟩
 · cases impossible
 · obtain ⟨ptes, -, -⟩ := walkAlloc_frame interior (self.markShared old i pte)
   have allocated := marked.walkAlloc interior
   subst added
   rw [← shared_pa pte]
   apply allocated.share absent
   · unfold mapped
     rw [ptes, shared_pa]
     change 0 < (self.markShared old i pte).mapped pte.pa
     rw [sameMapped]
     exact mapped_pos (mem_of_walk found)
   · exact shared_unwritable pte
   · rw [ptes, shared_pa]
     exact unwritable

variable {remaining : ℕ}

theorem uvmcopyFrom_round {interior : ℕ → ℕ}
 (copied : uvmcopyFrom old new interior i (remaining + 1) self = some (next, ok)) :
 ∃ pte state, self.walk old i = some pte ∧
  (((self.markShared old i pte).mappages new i (shared pte) (interior i) = some (state, true) ∧
   uvmcopyFrom old new interior (i + 1) remaining (state.krefpage pte.pa) =
    some (next, ok)) ∨
   (ok = false ∧
    (self.markShared old i pte).mappages new i (shared pte) (interior i) =
     some (state, false) ∧
    uvmunmap new true 0 i state = some next)) := by
 unfold uvmcopyFrom at copied
 split at copied
 · cases copied
 · rename_i pte found
   split at copied
   · cases copied
   · simp_all
   · simp_all

theorem Counted.copyPte_failed (counted : self.Counted pages fresh)
 (found : self.walk old i = some pte)
 (failed : (self.markShared old i pte).mappages new i (shared pte) interior =
  some (next, false)) : next.Counted pages fresh := by
 rcases mappages_some failed with ⟨-, same⟩ | ⟨impossible, -⟩
 · subst same
   exact (counted.markShared found).1.walkAlloc _
 · cases impossible

theorem Counted.uvmcopyFrom {interior : ℕ → ℕ} (counted : self.Counted pages fresh)
 (copied : uvmcopyFrom old new interior i remaining self = some (next, ok)) :
 next.Counted pages fresh := by
 induction remaining generalizing i self with
 | zero =>
  cases copied
  exact counted
 | succ remaining ih =>
  obtain ⟨pte, state, found, ⟨mapped, later⟩ | ⟨-, failed, unmapped⟩⟩ :=
   uvmcopyFrom_round copied
  · exact ih (counted.copyPte found mapped) later
  · exact (counted.copyPte_failed found failed).uvmunmap unmapped

/-! ### A fork that fails -/

theorem uvmunmap_places {doFree : Bool} (unmapped : uvmunmap pid doFree va npages self = some next)
 :
 next.places = self.places.filter fun mapping =>
  ¬ (mapping.pid = pid ∧ va ≤ mapping.va ∧ mapping.va < va + npages) := by
 induction npages generalizing va self with
 | zero =>
  cases unmapped
  simp
 | succ npages ih =>
  obtain ⟨pte, found, later⟩ := uvmunmap_round unmapped
  have freed : (if doFree then self.kfree pte.pa else self).places = self.places := by
   unfold places
   split
   · rw [(kfree_eq self pte.pa).2.2.1]
   · rfl
  rw [ih later, places_clearPte, freed, filter_filter]
  apply filter_congr
  intro mapping _
  rw [← Bool.decide_and, decide_eq_decide]
  by_cases same : mapping.pid = pid
  · simp only [same, true_and]
    omega
  · simp_all

theorem uvmcopyFrom_failed {interior : ℕ → ℕ} (keys : self.Keyed)
 (copied : uvmcopyFrom old new interior i remaining self = some (next, false)) :
 next.places = self.places.filter fun mapping => ¬ (mapping.pid = new ∧ mapping.va < i) := by
 induction remaining generalizing i self with
 | zero => cases copied
 | succ remaining ih =>
  obtain ⟨pte, state, found, round⟩ := uvmcopyFrom_round copied
  have marked := places_markShared keys found
  have markedKeys : (self.markShared old i pte).Keyed := keys_markShared keys
  obtain ⟨ptes, -, -⟩ := walkAlloc_frame (interior i) (self.markShared old i pte)
  have allocated : (walkAlloc (interior i) (self.markShared old i pte)).1.places =
   self.places := by
   rw [← marked]
   unfold places
   rw [ptes]
  rcases round with ⟨mapped, later⟩ | ⟨-, failed, unmapped⟩
  · rcases mappages_some mapped with ⟨impossible, -⟩ | ⟨-, absent, added⟩
    · cases impossible
    · subst added
      have stillKeyed : (walkAlloc (interior i) (self.markShared old i pte)).1.Keyed := by
       unfold Keyed
       rw [ptes]
       exact markedKeys
      have nextKeyed : (((walkAlloc (interior i) (self.markShared old i pte)).1.addPte new i
       (shared pte)).krefpage pte.pa).Keyed := keys_addPte stillKeyed absent
      rw [ih nextKeyed later]
      change List.filter _
       (_ :: (walkAlloc (interior i) (self.markShared old i pte)).1.places) = _
      rw [filter_cons_of_neg (by simp), allocated]
      apply filter_congr
      intro mapping member
      rw [decide_eq_decide]
      have different : ¬ (mapping.pid = new ∧ mapping.va = i) := by
       rw [← allocated] at member
       obtain ⟨stored, inPtes, same⟩ := mem_map.mp member
       have miss := walk_none absent inPtes
       rw [← same]
       exact miss
      by_cases samePid : mapping.pid = new
      · have other : mapping.va ≠ i := fun sameVa => different ⟨samePid, sameVa⟩
        simp only [samePid, true_and]
        omega
      · simp only [samePid, false_and]
  · rcases mappages_some failed with ⟨-, same⟩ | ⟨impossible, -⟩
    · subst same
      rw [uvmunmap_places unmapped, allocated]
      simp
    · cases impossible

theorem uvmcopy_failed {sz : ℕ} {interior : ℕ → ℕ} (keys : self.Keyed)
 (copied : self.uvmcopy old new sz interior = some (next, false)) :
 next.places = self.places := by
 rw [uvmcopyFrom_failed keys copied, filter_eq_self]
 intro mapping _
 apply decide_eq_true
 omega

/-! ### `uvmcowcopy` -/

theorem remap (found : self.walk pid va = some pte) (other : Pte) :
 ((uvmunmap pid false va 1 self).bind fun next =>
  match next.mappages pid va other 0 with
  | some (next, true) => some (next, true)
  | _ => none) = some ((self.clearPte pid va).addPte pid va other, true) := by
 have cleared : uvmunmap pid false va 1 self = some (self.clearPte pid va) := by
  unfold uvmunmap
  rw [found]
  rfl
 have added : (self.clearPte pid va).mappages pid va other 0 =
  some ((self.clearPte pid va).addPte pid va other, true) := by
  unfold mappages walkAlloc
  dsimp only
  rw [walk_clearPte]
  rfl
 rw [cleared, Option.bind_some, added]

/-- What `kcopy_n_deref` leaves when it copies into a page. -/
def copied (self : Kernel) (pa page : Page) (rest : List Page) : Kernel :=
 { self with
  freelist := rest
  mem := update (update self.mem page fun _ => 5) page
   (update self.mem page (fun _ => 5) pa)
  pageref := update (update self.pageref page 1) pa
   (update self.pageref page 1 pa - 1) }

/-- The three results of `uvmcowcopy`: no page is free, the only owner keeps its page, or the
page is copied. -/
inductive CowCopied (state : Kernel) (pid : Pid) (va : ℕ) (pte : Pte) : Kernel × Bool → Prop
 | exhausted (twice : 1 < state.pageref pte.pa) (free : state.freelist = []) :
  CowCopied state pid va pte (state, false)
 | kept (once : state.pageref pte.pa ≤ 1) :
  CowCopied state pid va pte
   ((state.clearPte pid va).addPte pid va (unshare pte pte.pa), true)
 | copies {page : Page} {rest : List Page} (twice : 1 < state.pageref pte.pa)
  (free : state.freelist = page :: rest) :
  CowCopied state pid va pte
   (((state.copied pte.pa page rest).clearPte pid va).addPte pid va (unshare pte page), true)

theorem uvmcowcopy_cases (found : self.walk pid (va / pgsize) = some pte) :
 ∃ result, self.uvmcowcopy pid va = some result ∧
  CowCopied self pid (va / pgsize) pte result := by
 unfold uvmcowcopy kcopyNDeref
 rw [found]
 dsimp only
 by_cases once : self.pageref pte.pa ≤ 1
 · rw [if_pos once]
   exact ⟨_, remap found _, .kept once⟩
 · rw [if_neg once]
   cases free : self.freelist with
   | nil =>
    have none : self.kalloc = none := by
     unfold kalloc
     rw [free]
    rw [none]
    exact ⟨_, rfl, .exhausted (by omega) free⟩
   | cons page rest =>
    have some : self.kalloc = some (page,
     { self with
      freelist := rest
      mem := update self.mem page fun _ => 5
      pageref := update self.pageref page 1 }) := by
     unfold kalloc
     rw [free]
    rw [some]
    have stillFound : (self.copied pte.pa page rest).walk pid (va / pgsize) = Option.some pte :=
     found
    exact ⟨_, remap stillFound _, .copies (by omega) free⟩

theorem kept_mapped (keys : self.Keyed) (found : self.walk pid va = some pte) :
 ((self.clearPte pid va).addPte pid va (unshare pte pte.pa)).mapped = self.mapped := by
 have present : 0 < self.mapped pte.pa := mapped_pos (mem_of_walk found)
 rw [mapped_addPte, mapped_clearPte keys found]
 change update (update self.mapped pte.pa (self.mapped pte.pa - 1)) pte.pa
  (update self.mapped pte.pa (self.mapped pte.pa - 1) pte.pa + 1) = _
 grind

section

variable (counted : self.Counted pages fresh)
include counted

variable (found : self.walk pid va = some pte)
include found

theorem Counted.copies_mapped {rest : List Page} (free : self.freelist = page :: rest) :
 (((self.copied pte.pa page rest).clearPte pid va).addPte pid va (unshare pte page)).mapped =
  update (update self.mapped pte.pa (self.mapped pte.pa - 1)) page 1 := by
 have isFree : page ∈ self.freelist := free ▸ mem_cons_self
 have different : pte.pa ≠ page := counted.ne_free (mapped_pos (mem_of_walk found)) isFree
 rw [mapped_addPte]
 change update (self.clearPte pid va).mapped page
  ((self.clearPte pid va).mapped page + 1) = _
 rw [mapped_clearPte counted.keys found, update_of_ne different.symm,
  counted.unmapped_free isFree]

theorem Counted.kept (once : self.pageref pte.pa ≤ 1) :
 ((self.clearPte pid va).addPte pid va (unshare pte pte.pa)).Counted pages fresh := by
 have count := counted.pageref (owners_pos_of_walk found)
 have sameMapped := kept_mapped counted.keys found
 have sameOwners : ((self.clearPte pid va).addPte pid va (unshare pte pte.pa)).owners =
  self.owners := by
  funext page
  unfold owners
  rw [sameMapped]
  rfl
 constructor
 · rw [sameOwners]
   exact counted.tallied
 · rw [sameOwners]
   exact counted.held_once
 · intro mapping inPtes twice
   rw [sameMapped] at twice
   rcases mem_cons.mp inPtes with new | old
   · rw [new] at twice
     change 1 < self.mapped pte.pa at twice
     have : self.mapped pte.pa ≤ self.owners pte.pa := Nat.le_add_right _ _
     omega
   · exact counted.unshared mapping (mem_of_mem_filter old) twice
 · exact keys_addPte (keys_clearPte counted.keys) walk_clearPte

theorem Counted.copies_owners {rest : List Page} (free : self.freelist = page :: rest) :
 (((self.copied pte.pa page rest).clearPte pid va).addPte pid va (unshare pte page)).owners =
  update (update self.owners page 1) pte.pa (self.owners pte.pa - 1) := by
 have isFree : page ∈ self.freelist := free ▸ mem_cons_self
 have different : pte.pa ≠ page := counted.ne_free (mapped_pos (mem_of_walk found)) isFree
 rw [owners_addPte]
 change update (self.clearPte pid va).owners page
  ((self.clearPte pid va).owners page + 1) = _
 rw [owners_clearPte counted.keys found, update_of_ne different.symm,
  counted.unowned_free isFree, update_comm different]

theorem Counted.copies {rest : List Page} (twice : 1 < self.pageref pte.pa)
 (free : self.freelist = page :: rest) :
 (((self.copied pte.pa page rest).clearPte pid va).addPte pid va
  (unshare pte page)).Counted pages fresh := by
 have isFree : page ∈ self.freelist := free ▸ mem_cons_self
 have present : 0 < self.mapped pte.pa := mapped_pos (mem_of_walk found)
 have different := counted.ne_free present isFree
 have sameMapped := counted.copies_mapped found free
 have sameOwners := counted.copies_owners found free
 constructor
 · rw [sameOwners]
   have tallied := counted.tallied
   rw [free] at tallied
   have owned : 0 < update self.owners page 1 pte.pa := by
    rw [update_of_ne different]
    exact owners_pos_of_walk found
   have released := tallied.take.release owned
   rw [update_of_ne different, update_of_ne different, if_neg (by omega)]
    at released
   unfold copied
   rw [update_of_ne different]
   exact released
 · intro other inHeld
   have held : other ∈ self.held := inHeld
   have once := counted.held_once other held
   rw [sameOwners, update_of_ne (counted.ne_held present held).symm,
    update_of_ne, once]
   intro same
   rw [same, counted.unowned_free isFree] at once
   cases once
 · intro mapping inPtes shared
   rw [sameMapped] at shared
   rcases mem_cons.mp inPtes with new | old
   · rw [new] at shared
     change 1 < update (update self.mapped pte.pa
      (self.mapped pte.pa - 1)) page 1 page at shared
     rw [update_self] at shared
     omega
   · have member : mapping ∈ self.ptes := mem_of_mem_filter old
     rw [update_of_ne (counted.ne_free (mapped_pos member) isFree)] at shared
     apply counted.unshared mapping member
     by_cases same : mapping.pte.pa = pte.pa
     · grind
     · simp_all
 · have cleared : (self.copied pte.pa page rest).Keyed := counted.keys
   exact keys_addPte (keys_clearPte cleared) walk_clearPte

end

variable {result : Kernel × Bool}

theorem Counted.cowCopied (counted : self.Counted pages fresh) (found : self.walk pid va = some pte)
 (cow : CowCopied self pid va pte result) :
 result.1.Counted pages fresh := by
 cases cow with
 | exhausted twice free => exact counted
 | kept once => exact counted.kept found once
 | copies twice free => exact counted.copies found twice free

/-! ### Page faults and `copyout` -/

theorem Counted.mem (counted : self.Counted pages fresh) (mem : Page → ℕ → UInt8) :
 Counted pages fresh { self with mem := mem } where
 tallied := counted.tallied
 held_once := counted.held_once
 unshared := counted.unshared
 keys := counted.keys

theorem iscowpage_eq_true (cow : self.iscowpage pid va = true) :
 va < self.sz pid ∧ ∃ pte, self.walk pid (va / pgsize) = some pte ∧ pte.cow := by
 unfold iscowpage at cow
 cases found : self.walk pid (va / pgsize) with
 | none =>
  rw [found] at cow
  cases cow
 | some pte =>
  rw [found] at cow
  have both := of_decide_eq_true cow
  exact ⟨both.1, pte, rfl, both.2⟩

section

variable (counted : self.Counted pages fresh)
include counted

theorem Counted.uvmcowcopy (cow : self.iscowpage pid va = true)
 (copied : self.uvmcowcopy pid va = some result) : result.1.Counted pages fresh := by
 obtain ⟨-, pte, found, -⟩ := iscowpage_eq_true cow
 obtain ⟨other, same, cases⟩ := uvmcowcopy_cases found
 rw [copied] at same
 cases same
 exact counted.cowCopied found cases

theorem Counted.pageFault (handled : self.pageFault pid va = some result) :
 result.1.Counted pages fresh := by
 unfold Kernel.pageFault at handled
 split at handled
 · rename_i cow
   exact counted.uvmcowcopy cow handled
 · cases handled
   exact counted

theorem Counted.breakCow (broken : self.breakCow pid va = some next) :
 next.Counted pages fresh := by
 unfold Kernel.breakCow at broken
 split at broken
 · rename_i cow
   obtain ⟨result, copied, same⟩ := Option.map_eq_some_iff.mp broken
   subst same
   exact counted.uvmcowcopy cow copied
 · cases broken
   exact counted

theorem Counted.copyout {dstva : ℕ} {src : List UInt8}
 (copied : copyout pid dstva src self = some result) : result.1.Counted pages fresh := by
 fun_induction Kernel.copyout pid dstva src self with
 | case1 =>
  cases copied
  exact counted
 | case2 dstva byte rest self ih =>
  obtain ⟨next, broken, later⟩ := Option.bind_eq_some_iff.mp copied
  have kept := counted.breakCow broken
  split at later
  · cases later
    exact kept
  · rename_i pa found
    exact ih next pa (kept.mem _) later

/-! ### Runs -/

theorem Counted.mapPage {writable user : Bool} (member : page ∈ self.held)
 (added : self.mappages pid va ⟨page, writable, user, false⟩ interior = some (next, true)) :
 Counted pages fresh { next with held := next.held.erase page } := by
 rcases mappages_some added with ⟨impossible, -⟩ | ⟨-, absent, same⟩
 · cases impossible
 · subst same
   obtain ⟨-, -, held⟩ := walkAlloc_frame interior self
   exact (counted.walkAlloc interior).map_held absent (held page member)

theorem Counted.mapPage_failed (added : self.mappages pid va pte interior = some (next, false)) :
 next.Counted pages fresh := by
 rcases mappages_some added with ⟨-, same⟩ | ⟨impossible, -⟩
 · subst same
   exact counted.walkAlloc interior
 · cases impossible

theorem Counted.sz (sz : Pid → ℕ) : Counted pages fresh { self with sz := sz } where
 tallied := counted.tallied
 held_once := counted.held_once
 unshared := counted.unshared
 keys := counted.keys

theorem Counted.performs {call : Event × Outcome} (taken : self.performs call next) :
 next.Counted pages fresh := by
 obtain ⟨event, outcome⟩ := call
 have cleared (page : Page) := counted.mem (update self.mem page fun _ => 0)
 cases performed taken with
 | exhausted none => exact counted
 | kalloc allocated => exact counted.hold allocated
 | kfree member => exact counted.kfree_held member
 | map member added => exact (cleared _).mapPage member added
 | mapFailed member added => exact (cleared _).mapPage_failed added
 | setSz pid sz => exact counted.sz _
 | fork copied => exact Counted.sz (counted.uvmcopyFrom copied) _
 | forkFailed copied => exact counted.uvmcopyFrom copied
 | uvmunmap unmapped => exact counted.uvmunmap unmapped
 | load found user => exact counted
 | loadTrapped handled => exact counted.pageFault handled
 | loadKilled handled => exact counted.pageFault handled
 | store found user writable => exact counted.mem _
 | storeTrapped handled => exact counted.pageFault handled
 | storeKilled handled => exact counted.pageFault handled
 | copyout copied => exact counted.copyout copied
 | copyoutFailed copied => exact counted.copyout copied

theorem Counted.kfree_new (new : page ∉ pages) (uncounted : self.pageref page = 0)
 (isFresh : fresh page) : (self.kfree page).Counted (page :: pages) fresh := by
 obtain ⟨pageref, freelist, ptes, held, -⟩ := kfree_eq self page
 have owned : (self.kfree page).owners = self.owners := by
  unfold owners mapped
  rw [ptes, held]
 rw [if_pos (by rw [uncounted]; decide)] at freelist
 constructor
 · rw [owned, pageref, freelist]
   exact counted.tallied.add new uncounted isFresh
 · rw [held, owned]
   exact counted.held_once
 · unfold mapped
   rw [ptes]
   exact counted.unshared
 · unfold Keyed
   rw [ptes]
   exact counted.keys

end

theorem boot_counted (mem : Page → ℕ → UInt8) : (boot mem).Counted [] fresh where
 tallied := .empty
 held_once _ member := absurd member not_mem_nil
 unshared _ member := absurd member not_mem_nil
 keys := nodup_nil

theorem foldl_kfree_counted {freed : List Page} (counted : self.Counted freed fun _ => True)
 (uncounted : ∀ page ∉ freed, self.pageref page = 0) (nodup : (pages ++ freed).Nodup) :
 (pages.foldl kfree self).Counted (pages.reverse ++ freed) fun _ => True := by
 induction pages generalizing self freed with
 | nil => exact counted
 | cons page rest ih =>
  rw [cons_append, nodup_cons] at nodup
  have new : page ∉ freed := fun member => nodup.1 (mem_append_right _ member)
  rw [foldl_cons, reverse_cons, append_assoc]
  apply ih (counted.kfree_new new (uncounted page new) trivial)
  · intro other absent
    obtain ⟨different, older⟩ := ne_and_not_mem_of_not_mem_cons absent
    rw [(kfree_eq self page).1, update_of_ne different]
    exact uncounted other older
  · grind

theorem kinit_counted (mem : Page → ℕ → UInt8) (nodup : pages.Nodup) :
 (kinit mem pages).Counted pages fun _ => True := by
 have counted : (kinit mem pages).Counted (pages.reverse ++ []) fun _ => True := by
  apply foldl_kfree_counted (boot_counted mem) (fun _ _ => rfl)
  rw [append_nil]
  exact nodup
 refine ⟨counted.tallied.of_mem_iff ?_, counted.held_once, counted.unshared, counted.keys⟩
 simp

variable {calls : List (Event × Outcome)}

theorem Counted.run (counted : self.Counted pages fresh) (run : Run Kernel.performs self calls next)
 :
 next.Counted pages fresh :=
 run.invariant counted fun _ _ _ counted performed => counted.performs performed

theorem reachable_counted {mem : Page → ℕ → UInt8} (nodup : pages.Nodup)
 (run : Run performs (kinit mem pages) calls self) :
 self.Counted pages fun _ => True :=
 (kinit_counted mem nodup).run run

theorem Counted.pageref_later (counted : self.Counted pages fresh) (positive : 0 < self.owners page)
 (run : Run Kernel.performs self calls next) :
 next.pageref page = next.owners page := by
 have used : self.Counted pages fun other => other ≠ page ∧ fresh other :=
  { counted with tallied := counted.tallied.used positive }
 have later := used.run run
 by_cases none : next.owners page = 0
 · rw [none]
   rcases later.tallied.unowned page none with zero | ⟨-, different, -⟩
   · exact zero
   · exact absurd rfl different
 · exact later.pageref (Nat.pos_of_ne_zero none)

theorem Counted.unwritable (counted : self.Counted pages fresh) {mapping other : Mapping}
 (member : mapping ∈ self.ptes) (otherMember : other ∈ self.ptes) (different : other ≠ mapping)
 (same : other.pte.pa = mapping.pte.pa) : mapping.pte.writable = false := by
 apply counted.unshared mapping member
 by_contra once
 exact different (eq_of_mapped_le_one member otherMember same (Nat.not_lt.mp once))

theorem fork_failed (keys : self.Keyed) {parent child : Pid} {interior : ℕ → ℕ}
 (failed : self.performs (.fork parent child interior, .failed) next) :
 next.places = self.places := by
 cases performed failed with
 | forkFailed copied => exact uvmcopy_failed keys copied

/-- The state after a call that answers what is expected. -/
def answers (state : Kernel) (call : Event × Outcome) : Option Kernel :=
 (state.step call.1).bind fun result => if result.2 = call.2 then some result.1 else none

theorem performs_of_answers {call : Event × Outcome} (answered : self.answers call = some next) :
 self.performs call next := by
 obtain ⟨result, stepped, same⟩ := Option.bind_eq_some_iff.mp answered
 split at same
 · rename_i expected
   cases same
   unfold performs
   rw [stepped, ← expected]
 · cases same

theorem run_of_replay {start final : Kernel} (replayed : replay answers start calls = some final) :
 Run performs start calls final :=
 (Run.of_replay_all replayed).mono fun _ _ _ answered => performs_of_answers answered

/-- `kinit` leaves a count below zero where no page was allocated yet. -/
theorem kinit_pageref_negative : ¬ ∀ (mem : Page → ℕ → UInt8) (pages : List Page)
 (calls : List (Event × Outcome)) (state : Kernel), pages.Nodup →
  Run performs (kinit mem pages) calls state →
   ∀ page ∈ pages, state.pageref page = state.owners page := by
 intro counts
 have run : Run performs (kinit (fun _ _ => 0) [0, 1]) [(.kalloc, .done)] _ := .single rfl
 have zero := counts _ _ _ _ (by decide) run 0 (by decide)
 have negative : ¬ (-1 : ℤ) = (0 : ℕ) := by decide
 exact negative zero

theorem pageref_counts {mem : Page → ℕ → UInt8} (nodup : pages.Nodup)
 {calls : List (Event × Outcome)} {state : Kernel}
 (run : Run performs (kinit mem pages) calls state) :
 (∀ page later final, 0 < state.owners page → Run performs state later final →
  final.pageref page = final.owners page) ∧
  (∀ page, state.owners page = 0 → state.pageref page = 0 ∨ state.pageref page = -1) ∧
  (∀ page ∈ state.held, state.pageref page = 1 ∧ state.mapped page = 0) ∧
  (∀ page, page ∈ state.freelist ↔ page ∈ pages ∧ state.owners page = 0) ∧
  state.freelist.Nodup ∧
  (∀ mapping ∈ state.ptes, mapping.pte.pa ∉ state.freelist) ∧
  (∀ mapping ∈ state.ptes, ∀ other ∈ state.ptes, other ≠ mapping →
   other.pte.pa = mapping.pte.pa → mapping.pte.writable = false) ∧
  ∀ parent child interior next,
   state.performs (.fork parent child interior, .failed) next →
    next.mapped = state.mapped := by
 have counted := reachable_counted nodup run
 refine ⟨fun _ _ _ positive later => counted.pageref_later positive later, ?_, ?_,
  counted.tallied.mem_free, counted.tallied.nodup, ?_, ?_, ?_⟩
 · intro page none
   exact (counted.tallied.unowned page none).imp_right And.left
 · intro page member
   have once := counted.held_once page member
   have count := counted.pageref (once ▸ Nat.one_pos)
   rw [once] at count
   exact ⟨count, counted.unmapped_held member⟩
 · intro mapping member free
   have unowned := counted.unowned_free free
   have present := owners_pos_of_walk (walk_of_mem counted.keys member)
   omega
 · intro mapping member other otherMember different same
   exact counted.unwritable member otherMember different same
 · intro parent child interior next failed
   exact mapped_of_places (fork_failed counted.keys failed)

def forkCalls : List (Event × Outcome) :=
 [(.kalloc, .done), (.map 0 0 2 true true 0, .done), (.setSz 0 pgsize, .done),
  (.fork 0 1 fun _ => 0, .done)]

theorem forkCalls_run : ∃ state, Run performs (kinit (fun _ _ => 0) [0, 1, 2]) forkCalls state ∧
 state.owners 2 = 2 := by
 have replayed : ∃ state, replay answers (kinit (fun _ _ => 0) [0, 1, 2]) forkCalls = some state ∧
  state.owners 2 = 2 := ⟨_, rfl, rfl⟩
 obtain ⟨state, ran, two⟩ := replayed
 exact ⟨state, run_of_replay ran, two⟩

theorem pageref_counts_fork : ∃ state,
 Run performs (kinit (fun _ _ => 0) [0, 1, 2]) forkCalls state ∧ state.pageref 2 = 2 := by
 obtain ⟨state, run, two⟩ := forkCalls_run
 have owned : 0 < state.owners 2 := by
  rw [two]
  exact Nat.two_pos
 have count := (pageref_counts (by decide) run).1 2 [] state owned .nil
 grind

end MyNotes.Xv6.Kernel
