/-
`bmap` of lab 9: the blocks of one inode, with a doubly indirect block.

`balloc` is a parameter that picks a block for the set of blocks in use; the block is zeroed
and taken.  A block of numbers is a function of the index.  Blocks are written through the log
as they are changed, so that one copy of a block is enough.
-/

import Mathlib.Data.Finset.Insert

namespace MyNotes.Xv6.BlockMap

open Function Option Nat Finset

def bsize : ℕ := 1024

def ndirect : ℕ := 11

def nindirect : ℕ := bsize / 4

def maxfile : ℕ := ndirect + nindirect + nindirect * nindirect

/-- The inode, the blocks of the disk, and those in use. -/
structure State where
 addrs : ℕ → ℕ
 size : ℕ
 data : ℕ → ℕ → ℕ
 used : Finset ℕ
 /-- The blocks that `bfree` was called for, oldest first. -/
 freed : List ℕ

abbrev Balloc := Finset ℕ → Option ℕ

/-- `balloc` never returns 0 or a block in use. -/
def Fresh (pick : Balloc) : Prop :=
 ∀ used block, pick used = some block → block ≠ 0 ∧ block ∉ used

namespace State

def balloc (pick : Balloc) (self : State) : Option (ℕ × State) :=
 (pick self.used).map fun block =>
  (block, { self with
   used := insert block self.used
   data := update self.data block fun _ => 0 })

/-- `if((addr = ip->addrs[i]) == 0) ip->addrs[i] = addr = balloc(ip->dev);` -/
def inodeBlock (pick : Balloc) (self : State) (i : ℕ) : Option (ℕ × State) :=
 if self.addrs i = 0 then
  (self.balloc pick).map fun (addr, next) =>
   (addr, { next with addrs := update next.addrs i addr })
 else some (self.addrs i, self)

/-- `if((addr = a[i]) == 0) a[i] = addr = balloc(ip->dev);`, where `a` is the data of a block -/
def entryBlock (pick : Balloc) (self : State) (block i : ℕ) : Option (ℕ × State) :=
 if self.data block i = 0 then
  (self.balloc pick).map fun (addr, next) =>
   (addr, { next with
    data := update next.data block (update (next.data block) i addr) })
 else some (self.data block i, self)

def bmap (pick : Balloc) (self : State) (bn : ℕ) : Option (ℕ × State) :=
 if bn < ndirect then self.inodeBlock pick bn
 else
  let bn := bn - ndirect
  if bn < nindirect then do
   let (addr, next) ← self.inodeBlock pick ndirect
   next.entryBlock pick addr bn
  else
   let bn := bn - nindirect
   let n := bn / nindirect
   if bn < nindirect * nindirect then do
    let (addr, next) ← self.inodeBlock pick (ndirect + 1)
    let (addr2, last) ← next.entryBlock pick addr n
    last.entryBlock pick addr2 (bn % nindirect)
   else none

end State

/-! ### The tree of an inode -/

/-- A number in the tree: one of `addrs`, or an entry of the block that another slot names. -/
inductive Slot where
 | root (i : ℕ)
 | sub (parent : Slot) (j : ℕ)
 deriving DecidableEq

namespace Slot

inductive Indirect : Slot → Prop
 | single : Indirect (.root ndirect)
 | double : Indirect (.root (ndirect + 1))
 | entry {n : ℕ} (within : n < nindirect) : Indirect (.sub (.root (ndirect + 1)) n)

inductive Valid : Slot → Prop
 | root {i : ℕ} (within : i < ndirect + 2) : Valid (.root i)
 | sub {parent : Slot} {j : ℕ} (indirect : Indirect parent) (within : j < nindirect) :
  Valid (.sub parent j)

theorem Indirect.valid {slot : Slot} (indirect : slot.Indirect) : slot.Valid := by
 cases indirect with
 | single => exact .root (lt_succ_of_lt (lt_succ_self _))
 | double => exact .root (lt_succ_self _)
 | entry within => exact .sub .double within

theorem sub_ne (slot : Slot) (j : ℕ) : Slot.sub slot j ≠ slot := by
 intro same
 have size := congrArg sizeOf same
 simp only [sub.sizeOf_spec] at size
 omega

/-- The block that a slot names; 0 below a block that is not there. -/
def value (state : State) : Slot → ℕ
 | .root i => state.addrs i
 | .sub parent j =>
  if parent.value state = 0 then 0 else state.data (parent.value state) j

def ofBlock (bn : ℕ) : Slot :=
 if bn < ndirect then .root bn
 else if bn - ndirect < nindirect then .sub (.root ndirect) (bn - ndirect)
 else .sub (.sub (.root (ndirect + 1)) ((bn - ndirect - nindirect) / nindirect))
  ((bn - ndirect - nindirect) % nindirect)

end Slot

def InTree (state : State) (block : ℕ) : Prop :=
 block ≠ 0 ∧ ∃ slot : Slot, slot.Valid ∧ slot.value state = block

/-- All blocks of the tree are different and allocated. -/
structure WellFormed (state : State) : Prop where
 distinct : ∀ left right : Slot, left.Valid → right.Valid → left.value state ≠ 0 →
  left.value state = right.value state → left = right
 allocated : ∀ slot : Slot, slot.Valid → slot.value state ≠ 0 → slot.value state ∈ state.used

structure Grown (state next : State) (slot : Slot) (block : ℕ) : Prop where
 nonzero : block ≠ 0
 values : ∀ other : Slot, other.Valid →
  other.value next = if other = slot then block else other.value state
 old : slot.value state = block ∨ slot.value state = 0 ∧ block ∉ state.used
 used : next.used = insert block state.used
 freed : next.freed = state.freed

section

variable {state next : State} {slot : Slot} {block : ℕ} (grown : Grown state next slot block)
include grown

theorem Grown.here (valid : slot.Valid) : slot.value next = block := by
 rw [grown.values slot valid, if_pos rfl]

theorem Grown.kept {other : Slot} (valid : other.Valid) (present : other.value state ≠ 0) :
 other.value next = other.value state := by
 rw [grown.values other valid]
 split
 · rename_i same
   subst same
   rcases grown.old with old | ⟨none, -⟩
   · exact old.symm
   · exact absurd none present
 · rfl

theorem Grown.wellFormed (formed : WellFormed state) (valid : slot.Valid) : WellFormed next := by
 have unlike {other : Slot} (otherValid : other.Valid) (different : other ≠ slot) :
  other.value state ≠ block := by
  intro same
  rcases grown.old with old | ⟨-, fresh⟩
  · exact different (formed.distinct other slot otherValid valid (same ▸ grown.nonzero)
     (same.trans old.symm))
  · exact fresh (same ▸ formed.allocated other otherValid (same ▸ grown.nonzero))
 refine ⟨fun left right leftValid rightValid present same => ?_,
  fun other otherValid present => ?_⟩
 · rw [grown.values left leftValid] at present same
   rw [grown.values right rightValid] at same
   split at same
   · rename_i leftHere
     split at same
     · simp_all
     · grind
   · rename_i elsewhere
     split at same
     · exact absurd same (unlike leftValid elsewhere)
     · rw [if_neg elsewhere] at present
       exact formed.distinct left right leftValid rightValid present same
 · rw [grown.values other otherValid] at present ⊢
   rw [grown.used]
   split
   · exact mem_insert_self _ _
   · rename_i elsewhere
     rw [if_neg elsewhere] at present
     exact mem_insert_of_mem (formed.allocated other otherValid present)

end

variable {pick : Balloc} {state next : State} {slot : Slot} {block : ℕ}

theorem Grown.refl (formed : WellFormed state) (valid : slot.Valid)
 (present : slot.value state ≠ 0) : Grown state state slot (slot.value state) where
 nonzero := present
 values other _ := by
  split
  · rename_i same
    rw [same]
  · rfl
 old := .inl rfl
 used := (insert_eq_of_mem (formed.allocated slot valid present)).symm
 freed := rfl

theorem balloc_eq_some (taken : state.balloc pick = some (block, next)) :
 pick state.used = some block ∧ next = { state with
  used := insert block state.used
  data := update state.data block fun _ => 0 } := by
 obtain ⟨block, picked, same⟩ := map_eq_some_iff.mp taken
 cases same
 exact ⟨picked, rfl⟩

theorem value_root (i : ℕ) : (Slot.root i).value state = state.addrs i := rfl

theorem value_sub (parent : Slot) (j : ℕ) : (Slot.sub parent j).value state =
 if parent.value state = 0 then 0 else state.data (parent.value state) j := rfl

variable {parent : Slot}

theorem value_sub_of_eq {here : ℕ} (same : parent.value state = here) (present : here ≠ 0) (j : ℕ) :
 (Slot.sub parent j).value state = state.data here j := by
 rw [value_sub, same, if_neg present]

theorem values_of_allocated (nonzero : block ≠ 0) (none : slot.value state = 0)
 (root : ∀ i, next.addrs i = if .root i = slot then block else state.addrs i)
 (zeroed : ∀ j, next.data block j = 0)
 (data : ∀ parent : Slot, parent.Valid → parent.value state ≠ 0 → ∀ j,
  next.data (parent.value state) j =
   if .sub parent j = slot then block else state.data (parent.value state) j)
 (orphan : ∀ parent : Slot, parent.value state = 0 → ∀ j, Slot.sub parent j ≠ slot)
 (other : Slot) (valid : other.Valid) :
 other.value next = if other = slot then block else other.value state := by
 induction other with
 | root i => exact root i
 | sub parent j ih =>
  cases valid with
  | sub indirect within =>
   have before := ih indirect.valid
   by_cases here : parent = slot
   · rw [if_pos here] at before
     rw [value_sub_of_eq before nonzero, zeroed, if_neg, value_sub, here, if_pos none]
     rw [here]
     exact Slot.sub_ne slot j
   · rw [if_neg here] at before
     by_cases missing : parent.value state = 0
     · rw [value_sub, before, if_pos missing, if_neg (orphan parent missing j), value_sub,
        if_pos missing]
     · rw [value_sub_of_eq before missing, data parent indirect.valid missing,
        value_sub_of_eq rfl missing]

variable {i : ℕ}

theorem inodeBlock_grown (picks : Fresh pick) (formed : WellFormed state) (within : i < ndirect + 2)
 (taken : state.inodeBlock pick i = some (block, next)) :
 Grown state next (.root i) block := by
 unfold State.inodeBlock at taken
 split at taken
 · rename_i none
   obtain ⟨⟨addr, allocated⟩, made, same⟩ := map_eq_some_iff.mp taken
   cases same
   obtain ⟨picked, made⟩ := balloc_eq_some made
   obtain ⟨nonzero, fresh⟩ := picks _ _ picked
   subst made
   refine ⟨nonzero, values_of_allocated nonzero none ?_ ?_ ?_ ?_,
    .inr ⟨none, fresh⟩, rfl, rfl⟩
   · grind
   · simp
   · intro parent valid present j
     change update state.data block (fun _ => 0) _ j = _
     rw [if_neg (by nofun), update_of_ne]
     exact fun same => fresh (same ▸ formed.allocated parent valid present)
   · nofun
 · rename_i present
   cases taken
   exact Grown.refl formed (.root within) present

variable {j : ℕ}

theorem entryBlock_grown (picks : Fresh pick) (formed : WellFormed state)
 (indirect : parent.Indirect) (present : parent.value state ≠ 0) (within : j < nindirect)
 (taken : state.entryBlock pick (parent.value state) j = some (block, next)) :
 Grown state next (.sub parent j) block := by
 unfold State.entryBlock at taken
 have entry := value_sub_of_eq rfl present j
 split at taken
 · rename_i none
   obtain ⟨⟨addr, allocated⟩, made, same⟩ := map_eq_some_iff.mp taken
   cases same
   obtain ⟨picked, made⟩ := balloc_eq_some made
   obtain ⟨nonzero, fresh⟩ := picks _ _ picked
   subst made
   have notParent : block ≠ parent.value state :=
    fun same => fresh (same ▸ formed.allocated parent indirect.valid present)
   refine ⟨nonzero, values_of_allocated nonzero (entry.trans none) ?_ ?_ ?_ ?_,
    .inr ⟨entry.trans none, fresh⟩, rfl, rfl⟩
   · intro k
     rw [if_neg (by nofun)]
   · simp_all
   · intro other valid otherPresent k
     change update (update state.data block fun _ => 0) (parent.value state)
      (update (update state.data block (fun _ => 0) (parent.value state)) j
       block) (other.value state) k = _
     have notNew : other.value state ≠ block :=
      fun same => fresh (same ▸ formed.allocated other valid otherPresent)
     by_cases here : other = parent
     · subst here
       rw [update_self, update_apply, update_of_ne notNew]
       simp only [Slot.sub.injEq, true_and]
     · rw [update_of_ne, update_of_ne notNew, if_neg]
       · exact fun same => here (Slot.sub.inj same).1
       · exact fun same =>
          here (formed.distinct other parent valid indirect.valid otherPresent same)
   · grind
 · rename_i nonzero
   cases taken
   rw [← entry]
   exact Grown.refl formed (.sub indirect within) (entry ▸ nonzero)

/-! ### `bmap` -/

/-- The tree has grown, and nothing else was allocated. -/
structure Extended (state next : State) : Prop where
 formed : WellFormed next
 kept : ∀ slot : Slot, slot.Valid → slot.value state ≠ 0 → slot.value next = slot.value state
 used : ∀ block, block ∈ next.used ↔ block ∈ state.used ∨ InTree next block
 fresh : ∀ block, InTree next block → InTree state block ∨ block ∉ state.used
 freed : next.freed = state.freed

theorem WellFormed.mem_used (formed : WellFormed state) (inTree : InTree state block) :
 block ∈ state.used := by
 obtain ⟨nonzero, slot, valid, rfl⟩ := inTree
 exact formed.allocated slot valid nonzero

theorem Extended.refl (formed : WellFormed state) : Extended state state where
 formed := formed
 kept _ _ _ := rfl
 used _ := (or_iff_left_of_imp formed.mem_used).symm
 fresh _ inTree := .inl inTree
 freed := rfl

theorem Extended.grow {start : State} (extended : Extended start state)
 (grown : Grown state next slot block) (valid : slot.Valid) : Extended start next := by
 have formed := grown.wellFormed extended.formed valid
 refine ⟨formed, fun other otherValid present => ?_, fun other => ⟨fun inUse => ?_, ?_⟩, ?_, ?_⟩
 · have before := extended.kept other otherValid present
   rw [grown.kept otherValid (before ▸ present), before]
 · rw [grown.used] at inUse
   rcases mem_insert.mp inUse with new | old
   · exact .inr ⟨new ▸ grown.nonzero, slot, valid, (grown.here valid).trans new.symm⟩
   · rcases (extended.used other).mp old with start | ⟨nonzero, place, placeValid, rfl⟩
     · exact .inl start
     · exact .inr ⟨nonzero, place, placeValid, grown.kept placeValid nonzero⟩
 · rintro (start | inTree)
   · rw [grown.used]
     exact mem_insert_of_mem ((extended.used other).mpr (.inl start))
   · exact formed.mem_used inTree
 · rintro other ⟨nonzero, place, placeValid, rfl⟩
   rw [grown.values place placeValid] at nonzero ⊢
   split at nonzero
   · rcases grown.old with before | ⟨-, fresh⟩
     · rw [if_pos ‹_›]
       exact extended.fresh block ⟨nonzero, slot, valid, before⟩
     · rw [if_pos ‹_›]
       exact .inr fun start => fresh ((extended.used block).mpr (.inl start))
   · rw [if_neg ‹_›]
     exact extended.fresh _ ⟨nonzero, place, placeValid, rfl⟩
 · rw [grown.freed, extended.freed]

theorem nindirect_pos : 0 < nindirect := by
 decide

variable {bn : ℕ}

theorem Slot.ofBlock_valid (within : bn < maxfile) : (Slot.ofBlock bn).Valid := by
 unfold ofBlock
 split
 · rename_i direct
   exact .root (Nat.lt_add_right 2 direct)
 · split
   · rename_i single
     exact .sub .single single
   · rename_i notDirect notSingle
     refine .sub (.entry (Nat.div_lt_of_lt_mul ?_)) (Nat.mod_lt _ nindirect_pos)
     unfold maxfile at within
     omega

theorem Slot.ofBlock_not_indirect : ¬ (Slot.ofBlock bn).Indirect := by
 unfold ofBlock
 intro indirect
 split at indirect
 · rename_i direct
   cases indirect
   · exact lt_irrefl _ direct
   · omega
 · split at indirect
   · generalize same : Slot.root ndirect = parent at indirect
     cases indirect with
     | entry within =>
      have wrong : ndirect = ndirect + 1 := Slot.root.inj same
      omega
   · cases indirect

theorem Slot.ofBlock_injective {left right : ℕ} (same : ofBlock left = ofBlock right) :
 left = right := by
 unfold ofBlock at same
 split at same
 · split at same
   · exact Slot.root.inj same
   · split at same
     · cases same
     · cases same
 · split at same
   · split at same
     · cases same
     · split at same
       · have entry := (Slot.sub.inj same).2
         omega
       · cases (Slot.sub.inj same).1
   · split at same
     · cases same
     · split at same
       · cases (Slot.sub.inj same).1
       · have child := (Slot.sub.inj (Slot.sub.inj same).1).2
         have entry := (Slot.sub.inj same).2
         have whole := div_add_mod (left - ndirect - nindirect) nindirect
         rw [child, entry, div_add_mod] at whole
         omega

theorem bmap_single (notDirect : ¬ bn < ndirect) (single : bn - ndirect < nindirect) :
 state.bmap pick bn = (state.inodeBlock pick ndirect).bind fun one =>
  one.2.entryBlock pick one.1 (bn - ndirect) := by
 unfold State.bmap
 rw [if_neg notDirect]
 exact if_pos single

theorem bmap_double (notDirect : ¬ bn < ndirect) (notSingle : ¬ bn - ndirect < nindirect)
 (within : bn < maxfile) :
 state.bmap pick bn = (state.inodeBlock pick (ndirect + 1)).bind fun one =>
  (one.2.entryBlock pick one.1 ((bn - ndirect - nindirect) / nindirect)).bind fun two =>
   two.2.entryBlock pick two.1 ((bn - ndirect - nindirect) % nindirect) := by
 have double : bn - ndirect - nindirect < nindirect * nindirect := by
  unfold maxfile at within
  omega
 unfold State.bmap
 rw [if_neg notDirect]
 exact (if_neg notSingle).trans (if_pos double)

theorem bmap_extended (picks : Fresh pick) (formed : WellFormed state) (within : bn < maxfile)
 (taken : state.bmap pick bn = some (block, next)) :
 Extended state next ∧ (Slot.ofBlock bn).value next = block ∧ block ≠ 0 := by
 have valid := Slot.ofBlock_valid within
 unfold Slot.ofBlock at valid ⊢
 by_cases direct : bn < ndirect
 · rw [if_pos direct] at valid ⊢
   rw [State.bmap, if_pos direct] at taken
   have grown := inodeBlock_grown picks formed (Nat.lt_add_right 2 direct) taken
   exact ⟨(Extended.refl formed).grow grown valid, grown.here valid, grown.nonzero⟩
 · rw [if_neg direct] at valid ⊢
   by_cases single : bn - ndirect < nindirect
   · rw [if_pos single] at valid ⊢
     rw [bmap_single direct single] at taken
     obtain ⟨⟨addr, middle⟩, first, second⟩ := bind_eq_some_iff.mp taken
     have parent := Slot.Indirect.single
     have one := inodeBlock_grown picks formed (Nat.lt_succ_of_lt (Nat.lt_succ_self _)) first
     have extended := (Extended.refl formed).grow one parent.valid
     have here := one.here parent.valid
     rw [← here] at second
     have two := entryBlock_grown picks extended.formed parent (here ▸ one.nonzero) single second
     exact ⟨extended.grow two valid, two.here valid, two.nonzero⟩
   · rw [if_neg single] at valid ⊢
     rw [bmap_double direct single within] at taken
     obtain ⟨⟨addr, middle⟩, first, rest⟩ := bind_eq_some_iff.mp taken
     obtain ⟨⟨addr2, last⟩, second, third⟩ := bind_eq_some_iff.mp rest
     have root := Slot.Indirect.double
     have one := inodeBlock_grown picks formed (Nat.lt_succ_self _) first
     have extended := (Extended.refl formed).grow one root.valid
     have here := one.here root.valid
     cases valid with
     | sub parent below =>
      cases parent with
      | entry child =>
       rw [← here] at second
       have two := entryBlock_grown picks extended.formed root (here ▸ one.nonzero) child
        second
       have childValid := Slot.Indirect.valid (.entry child)
       have more := extended.grow two childValid
       have there := two.here childValid
       rw [← there] at third
       have three := entryBlock_grown picks more.formed (.entry child)
        (there ▸ two.nonzero) below third
       have valid : Slot.Valid _ := .sub (.entry child) below
       exact ⟨more.grow three valid, three.here valid, three.nonzero⟩

theorem value_sub_ne_zero (present : (Slot.sub parent j).value state ≠ 0) :
 parent.value state ≠ 0 ∧
  (Slot.sub parent j).value state = state.data (parent.value state) j := by
 rw [value_sub] at present ⊢
 split at present
 · exact absurd rfl present
 · simp_all

theorem inodeBlock_present (present : (Slot.root i).value state ≠ 0) :
 state.inodeBlock pick i = some ((Slot.root i).value state, state) :=
 if_neg present

theorem entryBlock_present (present : (Slot.sub parent j).value state ≠ 0) :
 state.entryBlock pick (parent.value state) j =
  some ((Slot.sub parent j).value state, state) := by
 obtain ⟨there, entry⟩ := value_sub_ne_zero present
 rw [entry] at present ⊢
 exact if_neg present

theorem bmap_present (within : bn < maxfile) (present : (Slot.ofBlock bn).value state ≠ 0) :
 state.bmap pick bn = some ((Slot.ofBlock bn).value state, state) := by
 unfold Slot.ofBlock at present ⊢
 by_cases direct : bn < ndirect
 · rw [if_pos direct] at present ⊢
   rw [State.bmap, if_pos direct]
   exact inodeBlock_present present
 · rw [if_neg direct] at present ⊢
   by_cases single : bn - ndirect < nindirect
   · rw [if_pos single] at present ⊢
     rw [bmap_single direct single, inodeBlock_present (value_sub_ne_zero present).1]
     exact entryBlock_present present
   · rw [if_neg single] at present ⊢
     have child := (value_sub_ne_zero present).1
     rw [bmap_double direct single within, inodeBlock_present (value_sub_ne_zero child).1,
      bind_some, entryBlock_present child, bind_some]
     exact entryBlock_present present

theorem balloc_none (failed : state.balloc pick = none) : ∃ used, pick used = none :=
 ⟨state.used, map_eq_none_iff.mp failed⟩

theorem inodeBlock_none (failed : state.inodeBlock pick i = none) :
 ∃ used, pick used = none := by
 unfold State.inodeBlock at failed
 split at failed
 · exact balloc_none (map_eq_none_iff.mp failed)
 · cases failed

theorem entryBlock_none (failed : state.entryBlock pick block j = none) :
 ∃ used, pick used = none := by
 unfold State.entryBlock at failed
 split at failed
 · exact balloc_none (map_eq_none_iff.mp failed)
 · cases failed

theorem bind_none {First Second : Type} {first : Option First} {second : First → Option Second}
 (failed : first.bind second = none) :
 first = none ∨ ∃ value, first = some value ∧ second value = none := by
 cases first with
 | none => exact .inl rfl
 | some value => exact .inr ⟨value, rfl, failed⟩

theorem bmap_none (within : bn < maxfile) (failed : state.bmap pick bn = none) :
 ∃ used, pick used = none := by
 by_cases direct : bn < ndirect
 · rw [State.bmap, if_pos direct] at failed
   exact inodeBlock_none failed
 · by_cases single : bn - ndirect < nindirect
   · rw [bmap_single direct single] at failed
     rcases bind_none failed with first | ⟨_, _, second⟩
     · exact inodeBlock_none first
     · exact entryBlock_none second
   · rw [bmap_double direct single within] at failed
     rcases bind_none failed with first | ⟨_, _, rest⟩
     · exact inodeBlock_none first
     · rcases bind_none rest with second | ⟨_, _, third⟩
       · exact entryBlock_none second
       · exact entryBlock_none third

end MyNotes.Xv6.BlockMap
