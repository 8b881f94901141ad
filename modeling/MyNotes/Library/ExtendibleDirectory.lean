/-
The directory of an extendible hash table, without its pages.

A directory of depth `n` has `2 ^ n` slots, indexed by the low bits of a hash.  The
slots of one page are those that agree on the page's local depth.  Growing,
splitting, merging and shrinking keep this, and what they do to the page of a hash
is stated for each.
-/

import MyNotes.Library.LowBits

namespace MyNotes.Library.ExtendibleDirectory

open Library.LowBits Finset Nat

structure Directory (Page : Type*) where
 depth : ℕ
 localDepth : ℕ → ℕ
 page : ℕ → Page

variable {Page : Type*}

def Directory.route (directory : Directory Page) (hash : ℕ) : Page :=
 directory.page (hash % 2 ^ directory.depth)

def Directory.Holds (directory : Directory Page) (page : Page) : Prop :=
 ∃ slot < 2 ^ directory.depth, directory.page slot = page

/-- Two slots share a page exactly when they agree on its local depth. -/
structure Consistent (directory : Directory Page) : Prop where
 bound : ∀ slot < 2 ^ directory.depth, directory.localDepth slot ≤ directory.depth
 level : ∀ slot < 2 ^ directory.depth, ∀ other < 2 ^ directory.depth,
  directory.page slot = directory.page other →
   directory.localDepth slot = directory.localDepth other
 shared : ∀ slot < 2 ^ directory.depth, ∀ other < 2 ^ directory.depth,
  directory.page slot = directory.page other ↔
   slot % 2 ^ directory.localDepth slot = other % 2 ^ directory.localDepth slot

variable {old new : Directory Page}

theorem slot_lt (directory : Directory Page) (hash : ℕ) :
 hash % 2 ^ directory.depth < 2 ^ directory.depth :=
 Nat.mod_lt _ (Nat.two_pow_pos _)

theorem holds_route (directory : Directory Page) (hash : ℕ) :
 directory.Holds (directory.route hash) :=
 ⟨hash % 2 ^ directory.depth, slot_lt directory hash, rfl⟩

namespace Consistent

theorem route_eq_iff (consistent : Consistent old) {slot : ℕ} (bound : slot < 2 ^ old.depth)
 (hash : ℕ) :
 old.route hash = old.page slot ↔
  hash % 2 ^ old.localDepth slot = slot % 2 ^ old.localDepth slot := by
 have shared := consistent.shared slot bound _ (slot_lt old hash)
 rw [mod_mod_two_pow hash (consistent.bound slot bound)] at shared
 unfold Directory.route
 rw [eq_comm, shared, eq_comm]

end Consistent

/-! ### The slots of a page, counted -/

section Counting

variable [DecidableEq Page] {directory : Directory Page}

def Directory.slotsOf (directory : Directory Page) (slot : ℕ) : Finset ℕ :=
 (Finset.range (2 ^ directory.depth)).filter fun other => directory.page other = directory.page slot

theorem mem_slotsOf {slot other : ℕ} : other ∈ directory.slotsOf slot ↔
 other < 2 ^ directory.depth ∧ directory.page other = directory.page slot := by
 unfold Directory.slotsOf
 rw [mem_filter, mem_range]

theorem Consistent.card_slotsOf (consistent : Consistent directory) {slot : ℕ}
 (bound : slot < 2 ^ directory.depth) :
 (directory.slotsOf slot).card = 2 ^ (directory.depth - directory.localDepth slot) := by
 rw [← card_class (consistent.bound slot bound) (Nat.mod_lt slot (Nat.two_pow_pos _))]
 congr 1
 apply filter_congr
 intro other member
 rw [eq_comm, consistent.shared slot bound other (mem_range.mp member), eq_comm]

theorem consistent_of_card
 (bound : ∀ slot < 2 ^ directory.depth, directory.localDepth slot ≤ directory.depth)
 (agree : ∀ slot < 2 ^ directory.depth, ∀ other < 2 ^ directory.depth,
  slot % 2 ^ directory.localDepth slot = other % 2 ^ directory.localDepth slot →
   directory.page slot = directory.page other)
 (card : ∀ slot < 2 ^ directory.depth,
  (directory.slotsOf slot).card = 2 ^ (directory.depth - directory.localDepth slot)) :
 Consistent directory where
 bound := bound
 level := by
  intro slot slotBound other otherBound same
  have slots : directory.slotsOf slot = directory.slotsOf other := by
   unfold Directory.slotsOf
   rw [same]
  have sizes := (card slot slotBound).symm.trans (slots ▸ card other otherBound)
  have exponents := Nat.pow_right_injective (Nat.le_refl 2) sizes
  have one := bound slot slotBound
  have two := bound other otherBound
  omega
 shared := by
  intro slot slotBound other otherBound
  refine ⟨?_, agree slot slotBound other otherBound⟩
  intro same
  have small := Nat.mod_lt slot (Nat.two_pow_pos (directory.localDepth slot))
  -- The class of the slot is among the slots of its page, and there are as many of both.
  have subset : (Finset.range (2 ^ directory.depth)).filter (fun number =>
   number % 2 ^ directory.localDepth slot = slot % 2 ^ directory.localDepth slot) ⊆
    directory.slotsOf slot := by
   intro number member
   obtain ⟨below, low⟩ := mem_filter.mp member
   have numberBound := mem_range.mp below
   exact mem_slotsOf.mpr
    ⟨numberBound, (agree slot slotBound number numberBound low.symm).symm⟩
  have equal := eq_of_subset_of_card_le subset
   (by rw [card slot slotBound, card_class (bound slot slotBound) small])
  have member : other ∈ directory.slotsOf slot := mem_slotsOf.mpr ⟨otherBound, same.symm⟩
  grind

end Counting

/-! ### Growing -/

/-- The directory doubles: the new half repeats the old one. -/
structure Grown (old new : Directory Page) : Prop where
 depth : new.depth = old.depth + 1
 localDepth : ∀ slot < 2 ^ (old.depth + 1),
  new.localDepth slot = old.localDepth (slot % 2 ^ old.depth)
 page : ∀ slot < 2 ^ (old.depth + 1), new.page slot = old.page (slot % 2 ^ old.depth)

theorem Grown.consistent (consistent : Consistent old) (grown : Grown old new) :
 Consistent new where
 bound := by
  intro slot bound
  rw [grown.depth] at bound ⊢
  rw [grown.localDepth slot bound]
  exact (consistent.bound _ (slot_lt old slot)).trans (le_succ _)
 level := by
  intro slot bound other otherBound same
  rw [grown.depth] at bound otherBound
  rw [grown.page slot bound, grown.page other otherBound] at same
  rw [grown.localDepth slot bound, grown.localDepth other otherBound]
  exact consistent.level _ (slot_lt old slot) _ (slot_lt old other) same
 shared := by
  intro slot bound other otherBound
  rw [grown.depth] at bound otherBound
  have le := consistent.bound _ (slot_lt old slot)
  rw [grown.page slot bound, grown.page other otherBound, grown.localDepth slot bound,
   consistent.shared _ (slot_lt old slot) _ (slot_lt old other), mod_mod_two_pow slot le,
   mod_mod_two_pow other le]

theorem Grown.route (grown : Grown old new) (hash : ℕ) : new.route hash = old.route hash := by
 unfold Directory.route
 rw [grown.depth, grown.page _ (Nat.mod_lt _ (Nat.two_pow_pos _)),
  mod_mod_two_pow hash (Nat.le_succ _)]

variable {page : Page}

theorem Grown.holds (grown : Grown old new) (holds : new.Holds page) :
 old.Holds page := by
 obtain ⟨slot, bound, same⟩ := holds
 rw [grown.depth] at bound
 rw [grown.page slot bound] at same
 exact ⟨_, slot_lt old slot, same⟩

/-! ### Changing a class -/

/-- The slots of a class get a local depth and pages of their own, and the others stay. -/
theorem Consistent.change (consistent : Consistent old) {inner : ℕ} {inClass : ℕ → Prop}
 (depth : new.depth = old.depth) (room : inner ≤ old.depth)
 (agree : ∀ slot other, slot % 2 ^ inner = other % 2 ^ inner → inClass slot → inClass other)
 (closed : ∀ slot < 2 ^ old.depth, ∀ other < 2 ^ old.depth,
  old.page slot = old.page other → inClass other → inClass slot)
 (inside : ∀ slot < 2 ^ old.depth, inClass slot → new.localDepth slot = inner)
 (outside : ∀ slot < 2 ^ old.depth, ¬ inClass slot →
  new.localDepth slot = old.localDepth slot ∧ new.page slot = old.page slot)
 (apart : ∀ {slot other}, slot < 2 ^ old.depth → other < 2 ^ old.depth → inClass slot →
  ¬ inClass other → new.page slot ≠ new.page other)
 (pages : ∀ {slot other}, slot < 2 ^ old.depth → other < 2 ^ old.depth → inClass slot →
  inClass other → (new.page slot = new.page other ↔ slot % 2 ^ inner = other % 2 ^ inner)) :
 Consistent new where
 bound := by
  intro slot bound
  rw [depth] at bound ⊢
  by_cases own : inClass slot
  · rw [inside slot bound own]
    exact room
  · rw [(outside slot bound own).1]
    exact consistent.bound slot bound
 level := by
  intro slot bound other otherBound same
  rw [depth] at bound otherBound
  by_cases own : inClass slot
  · by_cases otherOwn : inClass other
    · rw [inside slot bound own, inside other otherBound otherOwn]
    · exact absurd same (apart bound otherBound own otherOwn)
  · by_cases otherOwn : inClass other
    · exact absurd same.symm (apart otherBound bound otherOwn own)
    · obtain ⟨slotDepth, slotPage⟩ := outside slot bound own
      obtain ⟨otherDepth, otherPage⟩ := outside other otherBound otherOwn
      rw [slotPage, otherPage] at same
      rw [slotDepth, otherDepth]
      exact consistent.level slot bound other otherBound same
 shared := by
  intro slot bound other otherBound
  rw [depth] at bound otherBound
  by_cases own : inClass slot
  · rw [inside slot bound own]
    by_cases otherOwn : inClass other
    · exact pages bound otherBound own otherOwn
    · exact iff_of_false (apart bound otherBound own otherOwn) fun same =>
       otherOwn (agree slot other same own)
  · obtain ⟨slotDepth, slotPage⟩ := outside slot bound own
    rw [slotDepth]
    by_cases otherOwn : inClass other
    · refine iff_of_false (apart otherBound bound otherOwn own).symm fun same => own ?_
      exact closed slot bound other otherBound
       ((consistent.shared slot bound other otherBound).mpr same) otherOwn
    · rw [slotPage, (outside other otherBound otherOwn).2]
      exact consistent.shared slot bound other otherBound

/-! ### Splitting -/

/-- A page whose local depth is below the depth is split: of its slots, those in
the other half of the class go to a fresh page. -/
structure Split (old new : Directory Page) (index : ℕ) (fresh : Page) : Prop where
 depth : new.depth = old.depth
 bound : index < 2 ^ old.depth
 room : old.localDepth index < old.depth
 unused : ∀ slot < 2 ^ old.depth, old.page slot ≠ fresh
 inside : ∀ slot < 2 ^ old.depth,
  slot % 2 ^ old.localDepth index = index % 2 ^ old.localDepth index →
   new.localDepth slot = old.localDepth index + 1 ∧
    (slot % 2 ^ (old.localDepth index + 1) = index % 2 ^ (old.localDepth index + 1) →
     new.page slot = old.page index) ∧
    (slot % 2 ^ (old.localDepth index + 1) ≠ index % 2 ^ (old.localDepth index + 1) →
     new.page slot = fresh)
 outside : ∀ slot < 2 ^ old.depth,
  slot % 2 ^ old.localDepth index ≠ index % 2 ^ old.localDepth index →
   new.localDepth slot = old.localDepth slot ∧ new.page slot = old.page slot

namespace Split

variable {index : ℕ} {fresh : Page}

theorem outside_apart (consistent : Consistent old) (split : Split old new index fresh)
 {slot other : ℕ} (bound : slot < 2 ^ old.depth) (otherBound : other < 2 ^ old.depth)
 (inClass : slot % 2 ^ old.localDepth index = index % 2 ^ old.localDepth index)
 (outClass : other % 2 ^ old.localDepth index ≠ index % 2 ^ old.localDepth index) :
 new.page slot ≠ new.page other := by
 rw [(split.outside other otherBound outClass).2]
 by_cases half : slot % 2 ^ (old.localDepth index + 1) = index % 2 ^ (old.localDepth index + 1)
 · rw [(split.inside slot bound inClass).2.1 half]
   intro same
   exact outClass ((consistent.shared index split.bound other otherBound).mp same).symm
 · rw [(split.inside slot bound inClass).2.2 half]
   exact (split.unused other otherBound).symm

theorem inside_iff (split : Split old new index fresh)
 {slot other : ℕ} (bound : slot < 2 ^ old.depth) (otherBound : other < 2 ^ old.depth)
 (inClass : slot % 2 ^ old.localDepth index = index % 2 ^ old.localDepth index)
 (otherInClass : other % 2 ^ old.localDepth index = index % 2 ^ old.localDepth index) :
 new.page slot = new.page other ↔
  slot % 2 ^ (old.localDepth index + 1) = other % 2 ^ (old.localDepth index + 1) := by
 have old_ne_fresh := split.unused index split.bound
 obtain ⟨-, slotKeeps, slotMoves⟩ := split.inside slot bound inClass
 obtain ⟨-, otherKeeps, otherMoves⟩ := split.inside other otherBound otherInClass
 by_cases half : slot % 2 ^ (old.localDepth index + 1) = index % 2 ^ (old.localDepth index + 1)
 · by_cases otherHalf :
    other % 2 ^ (old.localDepth index + 1) = index % 2 ^ (old.localDepth index + 1)
   · simp_all
   · grind
 · by_cases otherHalf :
    other % 2 ^ (old.localDepth index + 1) = index % 2 ^ (old.localDepth index + 1)
   · grind
   · rw [slotMoves half, otherMoves otherHalf]
     exact iff_of_true rfl (agree_of_both_differ inClass otherInClass half otherHalf)

theorem consistent (consistent : Consistent old) (split : Split old new index fresh) :
 Consistent new := by
 refine consistent.change split.depth split.room
  (fun slot other same inClass => (agree_mono (le_succ _) same).symm.trans inClass) ?_
  (fun slot bound inClass => (split.inside slot bound inClass).1) split.outside
  (outside_apart consistent split) (inside_iff split)
 intro slot bound other otherBound same inClass
 have otherPage := (consistent.shared index split.bound other otherBound).mpr inClass.symm
 exact ((consistent.shared index split.bound slot bound).mp (otherPage.trans same.symm)).symm

theorem route (consistent : Consistent old) (split : Split old new index fresh) (hash : ℕ) :
 (old.route hash = old.page index ∧
  (new.route hash = old.page index ∨ new.route hash = fresh)) ∨
  (old.route hash ≠ old.page index ∧ new.route hash = old.route hash) := by
 have same : new.route hash = new.page (hash % 2 ^ old.depth) := by
  unfold Directory.route
  rw [split.depth]
 have inClass := consistent.route_eq_iff split.bound hash
 rw [← mod_mod_two_pow hash split.room.le] at inClass
 by_cases old_page : old.route hash = old.page index
 · refine .inl ⟨old_page, ?_⟩
   obtain ⟨-, keeps, moves⟩ := split.inside _ (slot_lt old hash) (inClass.mp old_page)
   rw [same]
   by_cases half : hash % 2 ^ old.depth % 2 ^ (old.localDepth index + 1) =
    index % 2 ^ (old.localDepth index + 1)
   · exact .inl (keeps half)
   · exact .inr (moves half)
 · refine .inr ⟨old_page, ?_⟩
   rw [same]
   exact (split.outside _ (slot_lt old hash) fun agree => old_page (inClass.mpr agree)).2

theorem holds (split : Split old new index fresh) (holds : new.Holds page) :
 page = fresh ∨ old.Holds page := by
 obtain ⟨slot, bound, same⟩ := holds
 rw [split.depth] at bound
 rw [← same]
 by_cases inClass : slot % 2 ^ old.localDepth index = index % 2 ^ old.localDepth index
 · obtain ⟨-, keeps, moves⟩ := split.inside slot bound inClass
   by_cases half : slot % 2 ^ (old.localDepth index + 1) = index % 2 ^ (old.localDepth index + 1)
   · exact .inr ⟨index, split.bound, (keeps half).symm⟩
   · exact .inl (moves half)
 · exact .inr ⟨slot, bound, (split.outside slot bound inClass).2.symm⟩

end Split

/-! ### Merging -/

/-- A page and its split image of the same local depth become one of the two. -/
structure Merged (old new : Directory Page) (index image low : ℕ) (kept : Page) : Prop where
 depth : new.depth = old.depth
 bound : index < 2 ^ old.depth
 imageBound : image < 2 ^ old.depth
 local_eq : old.localDepth index = low + 1
 imageLocal_eq : old.localDepth image = low + 1
 agree : image % 2 ^ low = index % 2 ^ low
 differ : image % 2 ^ (low + 1) ≠ index % 2 ^ (low + 1)
 either : kept = old.page index ∨ kept = old.page image
 inside : ∀ slot < 2 ^ old.depth, slot % 2 ^ low = index % 2 ^ low →
  new.localDepth slot = low ∧ new.page slot = kept
 outside : ∀ slot < 2 ^ old.depth, slot % 2 ^ low ≠ index % 2 ^ low →
  new.localDepth slot = old.localDepth slot ∧ new.page slot = old.page slot

namespace Merged

variable {index image low : ℕ} {kept : Page}

theorem class_iff (consistent : Consistent old) (merged : Merged old new index image low kept)
 {slot : ℕ} (bound : slot < 2 ^ old.depth) :
 slot % 2 ^ low = index % 2 ^ low ↔
  old.page slot = old.page index ∨ old.page slot = old.page image := by
 have one := consistent.shared index merged.bound slot bound
 have two := consistent.shared image merged.imageBound slot bound
 rw [merged.local_eq, eq_comm] at one
 rw [merged.imageLocal_eq, eq_comm] at two
 rw [one, two]
 constructor
 · intro inClass
   by_cases half : index % 2 ^ (low + 1) = slot % 2 ^ (low + 1)
   · exact .inl half
   · exact .inr (agree_of_both_differ merged.agree inClass merged.differ (Ne.symm half))
 · intro same
   cases same with
   | inl agree => exact (agree_mono (le_succ low) agree).symm
   | inr agree => exact (agree_mono (le_succ low) agree).symm.trans merged.agree

theorem outside_apart (consistent : Consistent old) (merged : Merged old new index image low kept)
 {slot other : ℕ} (bound : slot < 2 ^ old.depth) (otherBound : other < 2 ^ old.depth)
 (inClass : slot % 2 ^ low = index % 2 ^ low)
 (outClass : other % 2 ^ low ≠ index % 2 ^ low) : new.page slot ≠ new.page other := by
 rw [(merged.inside slot bound inClass).2, (merged.outside other otherBound outClass).2]
 intro same
 apply outClass
 rw [class_iff consistent merged otherBound, ← same]
 exact merged.either

theorem holds_apart (consistent : Consistent old) (merged : Merged old new index image low kept)
 (holds : new.Holds page) :
 page = kept ∨ (page ≠ old.page index ∧ page ≠ old.page image) := by
 obtain ⟨slot, bound, same⟩ := holds
 rw [merged.depth] at bound
 rw [← same]
 by_cases inClass : slot % 2 ^ low = index % 2 ^ low
 · exact .inl (merged.inside slot bound inClass).2
 · have neither := (class_iff consistent merged bound).not.mp inClass
   rw [(merged.outside slot bound inClass).2]
   exact .inr (not_or.mp neither)

theorem consistent (consistent : Consistent old)
 (merged : Merged old new index image low kept) : Consistent new := by
 have room := consistent.bound index merged.bound
 rw [merged.local_eq] at room
 refine consistent.change merged.depth (by omega)
  (fun slot other same inClass => same.symm.trans inClass) ?_
  (fun slot bound inClass => (merged.inside slot bound inClass).1) merged.outside
  (outside_apart consistent merged) ?_
 · intro slot bound other otherBound same inClass
   rw [class_iff consistent merged bound, same, ← class_iff consistent merged otherBound]
   exact inClass
 · intro slot other bound otherBound inClass otherInClass
   rw [(merged.inside slot bound inClass).2, (merged.inside other otherBound otherInClass).2]
   exact iff_of_true rfl (inClass.trans otherInClass.symm)

theorem route (consistent : Consistent old) (merged : Merged old new index image low kept)
 (hash : ℕ) :
 ((old.route hash = old.page index ∨ old.route hash = old.page image) ∧
  new.route hash = kept) ∨
  (old.route hash ≠ old.page index ∧ old.route hash ≠ old.page image ∧
   new.route hash = old.route hash) := by
 have same : new.route hash = new.page (hash % 2 ^ old.depth) := by
  unfold Directory.route
  rw [merged.depth]
 have inClass := class_iff consistent merged (slot_lt old hash)
 rw [same]
 by_cases either : old.route hash = old.page index ∨ old.route hash = old.page image
 · exact .inl ⟨either, (merged.inside _ (slot_lt old hash) (inClass.mpr either)).2⟩
 · have stays := merged.outside _ (slot_lt old hash) fun agree => either (inClass.mp agree)
   exact .inr ⟨fun one => either (.inl one), fun two => either (.inr two), stays.2⟩

theorem holds (merged : Merged old new index image low kept) (holds : new.Holds page) :
 old.Holds page := by
 obtain ⟨slot, bound, same⟩ := holds
 rw [merged.depth] at bound
 rw [← same]
 by_cases inClass : slot % 2 ^ low = index % 2 ^ low
 · rw [(merged.inside slot bound inClass).2]
   cases merged.either with
   | inl first => exact ⟨index, merged.bound, first.symm⟩
   | inr second => exact ⟨image, merged.imageBound, second.symm⟩
 · exact ⟨slot, bound, (merged.outside slot bound inClass).2.symm⟩

end Merged

/-! ### Shrinking -/

/-- The upper half goes when no page needs the full depth. -/
structure Shrunk (old new : Directory Page) : Prop where
 depth : old.depth = new.depth + 1
 localDepth : new.localDepth = old.localDepth
 page : new.page = old.page
 shallow : ∀ slot < 2 ^ old.depth, old.localDepth slot ≠ old.depth

namespace Shrunk

theorem slot_lt_old (shrunk : Shrunk old new) {slot : ℕ} (bound : slot < 2 ^ new.depth) :
 slot < 2 ^ old.depth := by
 rw [shrunk.depth, pow_succ]
 omega

theorem holds (shrunk : Shrunk old new) (holds : new.Holds page) :
 old.Holds page := by
 obtain ⟨slot, bound, same⟩ := holds
 rw [shrunk.page] at same
 exact ⟨slot, shrunk.slot_lt_old bound, same⟩

theorem consistent (consistent : Consistent old) (shrunk : Shrunk old new) : Consistent new where
 bound := by
  intro slot bound
  have le := consistent.bound slot (shrunk.slot_lt_old bound)
  have ne := shrunk.shallow slot (shrunk.slot_lt_old bound)
  rw [shrunk.localDepth]
  have depth := shrunk.depth
  omega
 level := by
  intro slot bound other otherBound
  rw [shrunk.localDepth, shrunk.page]
  exact consistent.level slot (shrunk.slot_lt_old bound) other (shrunk.slot_lt_old otherBound)
 shared := by
  intro slot bound other otherBound
  rw [shrunk.localDepth, shrunk.page]
  exact consistent.shared slot (shrunk.slot_lt_old bound) other (shrunk.slot_lt_old otherBound)

theorem route (consistent : Consistent old) (shrunk : Shrunk old new) (hash : ℕ) :
 new.route hash = old.route hash := by
 have bound := shrunk.slot_lt_old (slot_lt new hash)
 have le := consistent.bound _ bound
 have ne := shrunk.shallow _ bound
 have small : old.localDepth (hash % 2 ^ new.depth) ≤ new.depth := by
  have depth := shrunk.depth
  omega
 have same := (consistent.route_eq_iff bound hash).mpr (mod_mod_two_pow hash small).symm
 rw [same]
 unfold Directory.route
 rw [shrunk.page]

end Shrunk

end MyNotes.Library.ExtendibleDirectory
