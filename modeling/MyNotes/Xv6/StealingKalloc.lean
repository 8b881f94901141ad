/-
The `kalloc` of lab 8 that steals up to 64 pages, pointer by pointer.

A page is its address, and `none` is the null pointer.  One call runs with nothing between
its steps, so that its locks are left out.  `r` is not initialised: what it holds when it is
tested is a parameter.
-/

import MyNotes.Library.LinkedChain

namespace MyNotes.Xv6.StealingKalloc

open Library.LinkedChain Function List

variable {ncpu : ℕ}

/-- The first words of the pages, and the heads of the lists. -/
structure Heap (ncpu : ℕ) where
 next : ℕ → Option ℕ
 freelist : Fin ncpu → Option ℕ

namespace Heap

def setNext (self : Heap ncpu) (page : ℕ) (link : Option ℕ) : Heap ncpu :=
 { self with next := update self.next page link }

def setFreelist (self : Heap ncpu) (i : Fin ncpu) (head : Option ℕ) : Heap ncpu :=
 { self with freelist := update self.freelist i head }

/-- The body of the `while` loop; the last assignment is not one of `block`. -/
def steal (self : Heap ncpu) (c i : Fin ncpu) (block : ℕ) : Heap ncpu :=
 let taken := self.setFreelist i (self.next block)
 let linked := taken.setNext block (taken.freelist c)
 linked.setFreelist c (linked.next block)

/-- The `while` loop, with `steal_left` before and after. -/
def stealFrom (c i : Fin ncpu) : ℕ → Heap ncpu → ℕ × Heap ncpu
 | 0, heap => (0, heap)
 | stealLeft + 1, heap =>
  match heap.freelist i with
  | none => (stealLeft + 1, heap)
  | some block => stealFrom c i stealLeft (heap.steal c i block)

/-- The `for` loop over the other lists. -/
def stealAll (c : Fin ncpu) : List (Fin ncpu) → ℕ → Heap ncpu → Heap ncpu
 | [], _, heap => heap
 | i :: rest, stealLeft, heap =>
  if i = c then stealAll c rest stealLeft heap
  else
   let stolen := stealFrom c i stealLeft heap
   if stolen.1 = 0 then stolen.2 else stealAll c rest stolen.1 stolen.2

/-- What `memset` with 5 leaves in the first word of a page. -/
def junk : ℕ := 0x0505050505050505

def kalloc (c : Fin ncpu) (r : Option ℕ) (self : Heap ncpu) : Option ℕ × Heap ncpu :=
 let heap := if r = none then stealAll c (List.finRange ncpu) 64 self else self
 match heap.freelist c with
 | none => (none, heap)
 | some page => (some page, (heap.setFreelist c (heap.next page)).setNext page (some junk))

end Heap

/-! ### Free lists -/

structure FreeLists (ncpu : ℕ) extends Heap ncpu where
 pages : Fin ncpu → List ℕ
 linked : ∀ i, From next (freelist i) (pages i)
 nodup : ∀ i, (pages i).Nodup
 apart : ∀ i j page, page ∈ pages i → page ∈ pages j → i = j

namespace FreeLists

theorem pages_eq {before after : FreeLists ncpu} (same : before.toHeap = after.toHeap) :
 before.pages = after.pages := by
 funext i
 have linked := before.linked i
 rw [same] at linked
 exact linked.unique (after.linked i)

/-- The first page of a list is taken off, and its first word is written. -/
def without (self : FreeLists ncpu) (i : Fin ncpu) {page : ℕ} {rest : List ℕ}
 (front : self.pages i = page :: rest) (link : Option ℕ) : FreeLists ncpu where
 next := update self.next page link
 freelist := update self.freelist i (self.next page)
 pages := update self.pages i rest
 linked j := by
  have nodup := self.nodup i
  have linked := self.linked i
  rw [front] at nodup linked
  by_cases here : j = i
  · rw [here, update_self, update_self]
    refine linked.rest.congr fun other member => update_of_ne ?_ _ _
    grind
  · rw [update_of_ne here, update_of_ne here]
    refine (self.linked j).congr fun other member => update_of_ne ?_ _ _
    rintro rfl
    exact here (self.apart j i other member (front ▸ mem_cons_self))
 nodup j := by
  by_cases here : j = i
  · have nodup := self.nodup i
    simp_all
  · rw [update_of_ne here]
    exact self.nodup j
 apart := by
  have inside : ∀ j page, page ∈ update self.pages i rest j → page ∈ self.pages j := by
   intro j other member
   by_cases here : j = i
   · simp_all
   · rwa [update_of_ne here] at member
  exact fun j k other inFirst inSecond =>
   self.apart j k other (inside j other inFirst) (inside k other inSecond)

variable {self : FreeLists ncpu} {i : Fin ncpu} {page : ℕ} {rest : List ℕ}

theorem mem_without {front : self.pages i = page :: rest} {link : Option ℕ} {j : Fin ncpu}
 {other : ℕ} (member : other ∈ (self.without i front link).pages j) : other ∈ self.pages j := by
 change other ∈ update self.pages i rest j at member
 by_cases here : j = i
 · simp_all
 · rwa [update_of_ne here] at member

variable {c : Fin ncpu}

theorem steal_eq (self : FreeLists ncpu) (other : i ≠ c) {block : ℕ}
 (front : self.pages i = block :: rest) :
 self.toHeap.steal c i block = (self.without i front (self.freelist c)).toHeap := by
 have own : update self.freelist i (self.next block) c = self.freelist c :=
  update_of_ne other.symm _ _
 have word : update self.next block (self.freelist c) block = self.freelist c :=
  update_self _ _ _
 unfold Heap.steal Heap.setNext Heap.setFreelist
 dsimp only
 rw [own, word]
 have unchanged : update (update self.freelist i (self.next block)) c
  (self.freelist c) = update self.freelist i (self.next block) := by
  rw [update_eq_self_iff, own]
 rw [unchanged]
 rfl

theorem exists_stealFrom (self : FreeLists ncpu) (other : i ≠ c) (stealLeft : ℕ) :
 ∃ after : FreeLists ncpu,
  Heap.stealFrom c i stealLeft self.toHeap =
   (stealLeft - (self.pages i).length, after.toHeap) ∧
  after.pages = update self.pages i ((self.pages i).drop stealLeft) := by
 induction stealLeft generalizing self with
 | zero => exact ⟨self, by rw [Heap.stealFrom, Nat.zero_sub], by simp⟩
 | succ stealLeft ih =>
  have head := (self.linked i).head?
  rw [Heap.stealFrom, head]
  cases front : self.pages i with
  | nil =>
   grind
  | cons block rest =>
   dsimp only [List.head?_cons]
   obtain ⟨after, stolen, pages⟩ := ih (self.without i front (self.freelist c))
   have shorter : (self.without i front (self.freelist c)).pages i = rest :=
    update_self _ _ _
   refine ⟨after, ?_, ?_⟩
   · rw [self.steal_eq other front, stolen, shorter, length_cons, Nat.add_sub_add_right]
   · rw [pages, shorter, drop_succ_cons]
     exact update_idem _ _ _

theorem exists_not_mem_drop {pages : List ℕ} (nodup : pages.Nodup) (nonempty : pages ≠ [])
 {count : ℕ} (some : count ≠ 0) : ∃ page, page ∈ pages ∧ page ∉ pages.drop count := by
 cases pages with
 | nil => exact absurd rfl nonempty
 | cons page others =>
  cases count with
  | zero => exact absurd rfl some
  | succ count =>
   refine ⟨page, mem_cons_self, fun member => ?_⟩
   grind

theorem exists_stealAll (self : FreeLists ncpu) (c : Fin ncpu) (order : List (Fin ncpu))
 (stealLeft : ℕ) : ∃ after : FreeLists ncpu,
  Heap.stealAll c order stealLeft self.toHeap = after.toHeap ∧
  after.pages c = self.pages c ∧ (∀ j, after.pages j ⊆ self.pages j) ∧
  (stealLeft ≠ 0 → ∀ i ∈ order, i ≠ c → self.pages i ≠ [] →
   ∃ j page, page ∈ self.pages j ∧ page ∉ after.pages j) := by
 induction order generalizing self stealLeft with
 | nil =>
  refine ⟨self, rfl, rfl, fun _ => List.Subset.refl _, fun _ _ impossible => ?_⟩
  cases impossible
 | cons i rest ih =>
  rw [Heap.stealAll]
  by_cases own : i = c
  · rw [if_pos own]
    obtain ⟨after, heap, same, inside, lost⟩ := ih self stealLeft
    refine ⟨after, heap, same, inside, fun some other member different nonempty => ?_⟩
    rcases mem_cons.mp member with here | later
    · exact absurd (here.trans own) different
    · exact lost some other later different nonempty
  · rw [if_neg own]
    obtain ⟨stolen, loop, pages⟩ := self.exists_stealFrom own stealLeft
    have elsewhere : ∀ j ≠ i, stolen.pages j = self.pages j := by
     intro j different
     rw [pages, update_of_ne different]
    have here : stolen.pages i = (self.pages i).drop stealLeft := by
     rw [pages, update_self]
    have shrinks : ∀ j, stolen.pages j ⊆ self.pages j := by
     intro j
     by_cases same : j = i
     · grind
     · simp_all
    have first : stealLeft ≠ 0 → self.pages i ≠ [] →
     ∃ page, page ∈ self.pages i ∧ page ∉ stolen.pages i := by
     intro some nonempty
     rw [here]
     exact exists_not_mem_drop (self.nodup i) nonempty some
    rw [loop]
    by_cases spent : stealLeft - (self.pages i).length = 0
    · rw [if_pos spent]
      refine ⟨stolen, rfl, elsewhere c (Ne.symm own), shrinks, fun some _ _ _ _ => ?_⟩
      refine ⟨i, first some fun empty => ?_⟩
      simp_all
    · rw [if_neg spent]
      obtain ⟨after, heap, same, inside, lost⟩ := ih stolen (stealLeft - (self.pages i).length)
      refine ⟨after, heap, same.trans (elsewhere c (Ne.symm own)),
       fun j => List.Subset.trans (inside j) (shrinks j),
       fun some other member different nonempty => ?_⟩
      by_cases empty : self.pages i = []
      · have later : other ≠ i := fun equal => nonempty (equal ▸ empty)
        have inRest := (mem_cons.mp member).resolve_left later
        grind
      · grind

/-! ### One call -/

/-- What a call with this result is to do to the lists: all pages but the one returned stay on
them, at most 64 leave the others, which get none, and without a result all were empty. -/
structure Serves (before : FreeLists ncpu) (c : Fin ncpu) (result : Option ℕ)
 (after : FreeLists ncpu) : Prop where
 together : ∀ page, (∃ i, page ∈ before.pages i) ↔
  result = some page ∨ ∃ i, page ∈ after.pages i
 returned : ∀ page, result = some page → ∀ i, page ∉ after.pages i
 others : ∀ i ≠ c, after.pages i ⊆ before.pages i
 moved : ∃ moved : List ℕ, moved.length ≤ 64 ∧
  ∀ i ≠ c, ∀ page ∈ before.pages i, page ∈ after.pages i ∨ page ∈ moved
 zero : result = none → ∀ i, before.pages i = []

/-- The call does so, whatever `r` was. -/
def Conserves (before : FreeLists ncpu) (c : Fin ncpu) (r : Option ℕ) : Prop :=
 ∃ after : FreeLists ncpu, (before.toHeap.kalloc c r).2 = after.toHeap ∧
  before.Serves c (before.toHeap.kalloc c r).1 after

theorem exists_heap (self : FreeLists ncpu) (c : Fin ncpu) (r : Option ℕ) :
 ∃ stolen : FreeLists ncpu,
  (if r = none then Heap.stealAll c (List.finRange ncpu) 64 self.toHeap else self.toHeap) =
   stolen.toHeap ∧ stolen.pages c = self.pages c ∧
  (∀ j, stolen.pages j ⊆ self.pages j) ∧
  ((r ≠ none ∨ ∀ i ≠ c, self.pages i = []) → stolen.pages = self.pages) ∧
  (r = none → ∀ i ≠ c, self.pages i ≠ [] →
   ∃ j page, page ∈ self.pages j ∧ page ∉ stolen.pages j) := by
 by_cases steals : r = none
 · obtain ⟨stolen, heap, own, inside, lost⟩ := self.exists_stealAll c (List.finRange ncpu) 64
   refine ⟨stolen, (if_pos steals).trans heap, own, inside, fun either => funext fun j => ?_,
    fun _ i => lost (by decide) i (mem_finRange i)⟩
   by_cases here : j = c
   · rw [here, own]
   · have empty := (either.resolve_left fun different => different steals) j here
     rw [empty]
     exact subset_nil.mp (empty ▸ inside j)
 · grind

variable {stolen : FreeLists ncpu} {r : Option ℕ}

section

variable (heap : (if r = none then Heap.stealAll c (List.finRange ncpu) 64 self.toHeap else
 self.toHeap) = stolen.toHeap)
include heap

theorem kalloc_cons (front : stolen.pages c = page :: rest) :
 self.toHeap.kalloc c r =
  (some page, (stolen.without c front (some Heap.junk)).toHeap) := by
 have head := (stolen.linked c).head?
 rw [Heap.kalloc, heap, head, front]
 rfl

theorem kalloc_nil (empty : stolen.pages c = []) :
 self.toHeap.kalloc c r = (none, stolen.toHeap) := by
 have head := (stolen.linked c).head?
 rw [Heap.kalloc, heap, head, empty]
 rfl

theorem kalloc_inside {after : FreeLists ncpu} (same : (self.toHeap.kalloc c r).2 = after.toHeap) :
 (∀ page, (self.toHeap.kalloc c r).1 = some page → page ∈ stolen.pages c) ∧
  ∀ j, after.pages j ⊆ stolen.pages j := by
 cases front : stolen.pages c with
 | nil =>
  rw [kalloc_nil heap front] at same ⊢
  refine ⟨fun page impossible => ?_, fun j => ?_⟩
  · cases impossible
  · rw [← pages_eq same]
    exact List.Subset.refl _
 | cons page rest =>
  rw [kalloc_cons heap front] at same ⊢
  refine ⟨fun other equal => ?_, fun j other member => ?_⟩
  · cases equal
    exact mem_cons_self
  · rw [← pages_eq same] at member
    exact mem_without member

end

theorem serves_without {before : FreeLists ncpu} (same : stolen.pages = before.pages)
 (front : stolen.pages c = page :: rest) (link : Option ℕ) :
 before.Serves c (some page) (stolen.without c front link) := by
 have own : (stolen.without c front link).pages c = rest := update_self _ _ _
 have other : ∀ i ≠ c, (stolen.without c front link).pages i = before.pages i := by
  intro i different
  rw [← same]
  exact update_of_ne different _ _
 rw [same] at front
 have nodup := before.nodup c
 rw [front] at nodup
 refine ⟨fun any => ⟨?_, ?_⟩, ?_, ?_, ⟨[], Nat.zero_le _, ?_⟩, ?_⟩
 · intro present
   obtain ⟨i, member⟩ := present
   by_cases here : i = c
   · rw [here, front] at member
     rcases mem_cons.mp member with first | later
     · exact Or.inl (congrArg some first.symm)
     · exact Or.inr ⟨c, own.symm ▸ later⟩
   · grind
 · intro either
   rcases either with first | ⟨i, member⟩
   · cases first
     exact ⟨c, front ▸ mem_cons_self⟩
   · exact ⟨i, same ▸ mem_without member⟩
 · intro any equal i member
   cases equal
   by_cases here : i = c
   · simp_all
   · rw [other i here] at member
     exact here (before.apart i c page member (front ▸ mem_cons_self))
 · simp_all
 · simp_all
 · exact fun impossible => by cases impossible

/-- The call conserves the pages exactly when no other CPU has one, or the own list is not empty
and `r` happens not to be 0. -/
theorem conserves_iff (before : FreeLists ncpu) (c : Fin ncpu) (r : Option ℕ) :
 before.Conserves c r ↔
  (∀ i ≠ c, before.pages i = []) ∨ (r ≠ none ∧ before.pages c ≠ []) := by
 obtain ⟨stolen, heap, own, inside, same, lost⟩ := before.exists_heap c r
 constructor
 · intro conserves
   obtain ⟨after, equal, serves⟩ := conserves
   obtain ⟨result, shrinks⟩ := kalloc_inside heap equal
   by_contra neither
   obtain ⟨some, short⟩ := not_or.mp neither
   obtain ⟨i, some⟩ := not_forall.mp some
   obtain ⟨different, nonempty⟩ := Classical.not_imp.mp some
   by_cases steals : r = none
   · -- A stolen page is neither returned nor on a list.
     obtain ⟨j, page, present, gone⟩ := lost steals i different nonempty
     rcases (serves.together page).mp ⟨j, present⟩ with returned | ⟨k, member⟩
     · have inOwn := result page returned
       have here := before.apart j c page present (inside c inOwn)
       rw [here] at gone
       exact gone inOwn
     · have still := shrinks k member
       have here := before.apart j k page present (inside k still)
       rw [here] at gone
       exact gone still
   · have empty : before.pages c = [] := by
      by_contra available
      exact short ⟨steals, available⟩
     have none := kalloc_nil heap (own.trans empty)
     exact nonempty (serves.zero (by rw [none]) i)
 · intro either
   have unchanged : stolen.pages = before.pages :=
    same (either.symm.imp_left fun both => both.1)
   cases front : stolen.pages c with
   | nil =>
    have empty := own.symm.trans front
    have all : ∀ i, before.pages i = [] := by
     intro i
     by_cases here : i = c
     · rw [here, empty]
     · simp_all
    rw [Conserves, kalloc_nil heap front]
    refine ⟨stolen, rfl, fun page => ?_, fun _ impossible => ?_, fun i _ => inside i,
     ⟨[], Nat.zero_le _, fun i _ page member => ?_⟩, fun _ => all⟩
    · simp [unchanged, all]
    · cases impossible
    · rw [all i] at member
      cases member
   | cons page rest =>
    rw [Conserves, kalloc_cons heap front]
    exact ⟨_, rfl, serves_without unchanged front _⟩

/-- The only free page is on the list of the other CPU. -/
def onePage : FreeLists 2 where
 next _ := none
 freelist i := if i.val = 1 then some 4096 else none
 pages i := if i.val = 1 then [4096] else []
 linked
  | 0 => rfl
  | 1 => ⟨rfl, rfl⟩
 nodup
  | 0 => nodup_nil
  | 1 => nodup_singleton 4096
 apart
  | 0, _, _, inFirst, _ => absurd inFirst not_mem_nil
  | 1, 0, _, _, inSecond => absurd inSecond not_mem_nil
  | 1, 1, _, _, _ => rfl

/-- The page is stolen and lost, and the call returns 0. -/
theorem not_conserves_onePage : ¬onePage.Conserves 0 none := by
 intro conserves
 obtain ⟨after, -, serves⟩ := conserves
 have zero : (onePage.toHeap.kalloc 0 none).1 = none := by decide
 cases serves.zero zero 1

end FreeLists

end MyNotes.Xv6.StealingKalloc
