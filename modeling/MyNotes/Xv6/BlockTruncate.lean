/-
`itrunc` of lab 9, and runs of `bmap` and `itrunc` on one inode.

`bfree` of a block that is not in use is a fault.  A run keeps the blocks that `bmap` has
returned since the last `itrunc`.
-/

import MyNotes.Library.Transition
import MyNotes.Xv6.BlockMap
import Mathlib.Data.Finset.Card

namespace MyNotes.Xv6.BlockMap

open Library.Transition Function List Slot State

namespace State

def bfree (self : State) (block : ℕ) : Option State :=
 if block ∈ self.used then
  some { self with used := self.used.erase block, freed := self.freed ++ [block] }
 else none

def clear (self : State) (i : ℕ) : State :=
 { self with addrs := update self.addrs i 0 }

def freeDirect (self : State) (i : ℕ) : Option State :=
 if self.addrs i = 0 then some self
 else (self.bfree (self.addrs i)).map fun next => next.clear i

/-- `if(a[j]) bfree(ip->dev, a[j]);` -/
def freeEntry (a : ℕ → ℕ) (self : State) (j : ℕ) : Option State :=
 if a j = 0 then some self else self.bfree (a j)

def freeEntries (self : State) (a : ℕ → ℕ) : Option State :=
 (List.range nindirect).foldlM (freeEntry a) self

def freeSingle (self : State) : Option State :=
 let addr := self.addrs ndirect
 if addr = 0 then some self
 else do
  let next ← self.freeEntries (self.data addr)
  let next ← next.bfree addr
  some (next.clear ndirect)

/-- The body of the outer loop over the doubly indirect block. -/
def freeChild (a : ℕ → ℕ) (self : State) (i : ℕ) : Option State :=
 if a i = 0 then some self
 else do
  let next ← self.freeEntries (self.data (a i))
  next.bfree (a i)

def freeDouble (self : State) : Option State :=
 let addr := self.addrs (ndirect + 1)
 if addr = 0 then some self
 else do
  let next ← (List.range nindirect).foldlM (freeChild (self.data addr)) self
  let next ← next.bfree addr
  some (next.clear (ndirect + 1))

def itrunc (self : State) : Option State := do
 let next ← (List.range ndirect).foldlM freeDirect self
 let next ← next.freeSingle
 let next ← next.freeDouble
 some { next with size := 0 }

/-- Some blocks are freed, and nothing else changes. -/
def free (self : State) (blocks : List ℕ) : State :=
 { self with used := self.used \ blocks.toFinset, freed := self.freed ++ blocks }

end State

/-! ### Loops -/

variable {state : State}

theorem free_nil : state.free [] = state := by
 unfold free
 simp

theorem free_free (first second : List ℕ) :
 (state.free first).free second = state.free (first ++ second) := by
 have used : (state.used \ first.toFinset) \ second.toFinset =
  state.used \ (first ++ second).toFinset := by
  rw [toFinset_append]
  exact sdiff_sdiff_left
 exact congrArg₂ (fun used freed => { state with used := used, freed := freed }) used
  (append_assoc _ _ _)

variable {block : ℕ}

theorem bfree_eq (inUse : block ∈ state.used) :
 state.bfree block = some (state.free [block]) := by
 unfold bfree free
 rw [if_pos inUse, toFinset_cons, toFinset_nil, Finset.insert_empty,
  Finset.sdiff_singleton_eq_erase]

def Freeable (state : State) (blocks : List ℕ) : Prop :=
 blocks.Nodup ∧ ∀ block ∈ blocks, block ∈ state.used

variable {first second : List ℕ}

theorem Freeable.left (freeable : Freeable state (first ++ second)) :
 Freeable state first :=
 ⟨(nodup_append.mp freeable.1).1,
  fun block member => freeable.2 block (mem_append_left second member)⟩

theorem Freeable.right (freeable : Freeable state (first ++ second)) :
 Freeable (state.free first) second := by
 obtain ⟨-, nodup, apart⟩ := nodup_append.mp freeable.1
 refine ⟨nodup, fun block member => Finset.mem_sdiff.mpr ⟨?_, fun before => ?_⟩⟩
 · exact freeable.2 block (mem_append_right first member)
 · exact apart block (mem_toFinset.mp before) block member rfl

def blocksOf (state : State) (slots : List Slot) : List ℕ :=
 (slots.filter fun slot => slot.value state ≠ 0).map (Slot.value state)

theorem blocksOf_append (first second : List Slot) :
 blocksOf state (first ++ second) = blocksOf state first ++ blocksOf state second := by
 unfold blocksOf
 rw [filter_append, map_append]

variable {slot : Slot}

theorem blocksOf_absent (absent : slot.value state = 0) :
 blocksOf state [slot] = [] := by
 unfold blocksOf
 simp_all

theorem blocksOf_present (present : slot.value state ≠ 0) :
 blocksOf state [slot] = [slot.value state] := by
 unfold blocksOf
 simp_all

theorem flatMap_blocksOf (items : List ℕ) (slots : ℕ → List Slot) :
 (items.flatMap fun item => blocksOf state (slots item)) =
  blocksOf state (items.flatMap slots) := by
 induction items with
 | nil => rfl
 | cons item rest ih => rw [flatMap_cons, ih, flatMap_cons, blocksOf_append]

variable {current : State}

theorem foldlM_free {step : State → ℕ → Option State} {blocks : ℕ → List ℕ} {items : List ℕ}
 (one : ∀ item ∈ items, ∀ before, Freeable (current.free before) (blocks item) →
  step (current.free before) item = some ((current.free before).free (blocks item)))
 (freeable : Freeable current (items.flatMap blocks)) :
 items.foldlM step current = some (current.free (items.flatMap blocks)) := by
 induction items generalizing current with
 | nil =>
  rw [flatMap_nil, free_nil]
  rfl
 | cons item rest ih =>
  rw [flatMap_cons] at freeable ⊢
  have first := one item mem_cons_self []
  rw [free_nil] at first
  rw [foldlM_cons, first freeable.left]
  refine (ih (fun other member before => ?_) freeable.right).trans
   (congrArg some (free_free _ _))
  rw [free_free]
  simp_all

def entrySlots (parent : Slot) : List Slot :=
 (List.range nindirect).flatMap fun j => [.sub parent j]

variable {parent : Slot}

theorem freeEntries_eq (present : parent.value state ≠ 0)
 (freeable : Freeable current (blocksOf state (entrySlots parent))) :
 current.freeEntries (state.data (parent.value state)) =
  some (current.free (blocksOf state (entrySlots parent))) := by
 unfold entrySlots at freeable ⊢
 rw [← flatMap_blocksOf] at freeable ⊢
 refine foldlM_free (fun j _ before ready => ?_) freeable
 have entry := value_sub_of_eq rfl present j
 unfold freeEntry
 split
 · rename_i none
   rw [blocksOf_absent (entry.trans none), free_nil]
 · rename_i there
   rw [← entry] at there ⊢
   rw [blocksOf_present there] at ready ⊢
   exact bfree_eq (ready.2 _ mem_cons_self)

def childSlots (i : ℕ) : List Slot :=
 entrySlots (.sub (.root (ndirect + 1)) i) ++ [.sub (.root (ndirect + 1)) i]

theorem blocksOf_below (absent : parent.value state = 0) :
 blocksOf state (entrySlots parent) = [] := by
 unfold entrySlots
 rw [← flatMap_blocksOf, flatMap_eq_nil_iff]
 intro j _
 exact blocksOf_absent (by rw [value_sub, if_pos absent])

theorem freeChild_eq {i : ℕ} (present : state.addrs (ndirect + 1) ≠ 0)
 (data : current.data = state.data) (freeable : Freeable current (blocksOf state (childSlots i)))
 :
 current.freeChild (state.data (state.addrs (ndirect + 1))) i =
  some (current.free (blocksOf state (childSlots i))) := by
 have entry := value_sub_of_eq (value_root (ndirect + 1)) present i
 unfold freeChild
 unfold childSlots at freeable ⊢
 rw [blocksOf_append] at freeable ⊢
 split
 · rename_i none
   have absent := entry.trans none
   rw [blocksOf_absent absent, blocksOf_below absent, append_nil, free_nil]
 · rename_i there
   rw [← entry] at there ⊢
   have below := freeEntries_eq there freeable.left
   have last := freeable.right
   rw [blocksOf_present there] at last ⊢
   rw [data, below]
   exact (bfree_eq (last.2 _ mem_cons_self)).trans (congrArg some (free_free _ _))

/-- Some blocks are freed, and the first numbers of the inode are cleared. -/
def wiped (state : State) (n : ℕ) (blocks : List ℕ) : State :=
 { state.free blocks with addrs := fun k => if k < n then 0 else state.addrs k }

def directSlots (n : ℕ) : List Slot := (List.range n).flatMap fun i => [.root i]

variable {n : ℕ}

theorem wiped_clear (blocks : List ℕ) :
 (wiped state n blocks).clear n = wiped state (n + 1) blocks := by
 have addrs : update (fun k => if k < n then 0 else state.addrs k) n 0 =
  fun k => if k < n + 1 then 0 else state.addrs k := by
  funext k
  rw [update_apply]
  by_cases here : k = n
  · simp_all
  · grind
 exact congrArg (fun addrs => { state.free blocks with addrs := addrs }) addrs

theorem wiped_zero : wiped state 0 [] = state := by
 have freed : state.free [] = state := free_nil
 unfold wiped
 simp_all

theorem wiped_addrs (blocks : List ℕ) : (wiped state n blocks).addrs n = state.addrs n :=
 if_neg (Nat.lt_irrefl n)

theorem wiped_free (first second : List ℕ) :
 (wiped state n first).free second = wiped state n (first ++ second) :=
 congrArg (fun freed : State =>
  { freed with addrs := fun k => if k < n then 0 else state.addrs k }) (free_free first second)

theorem wiped_skip (absent : state.addrs n = 0) (blocks : List ℕ) :
 wiped state n blocks = wiped state (n + 1) blocks := by
 have same : (wiped state n blocks).clear n = wiped state n blocks := by
  unfold clear
  rw [← wiped_addrs blocks] at absent
  rw [← absent, update_eq_self]
 rw [← wiped_clear, same]

theorem Freeable.wiped (freeable : Freeable state (first ++ second)) :
 Freeable (wiped state n first) second :=
 freeable.right

variable {before : List ℕ} {below : List Slot}

theorem part_eq {loop : Option State}
 (freeable : Freeable state (before ++ blocksOf state (below ++ [.root n])))
 (absent : state.addrs n = 0 → blocksOf state below = [])
 (looped : state.addrs n ≠ 0 →
  loop = some (wiped state n (before ++ blocksOf state below))) :
 (if state.addrs n = 0 then some (wiped state n before)
  else loop.bind fun next => (next.bfree (state.addrs n)).bind fun last =>
   some (last.clear n)) =
  some (wiped state (n + 1) (before ++ blocksOf state (below ++ [.root n]))) := by
 rw [blocksOf_append] at freeable ⊢
 split
 · rename_i none
   rw [absent none, blocksOf_absent ((value_root n).trans none), append_nil,
    append_nil, wiped_skip none]
 · rename_i present
   rw [← value_root n] at present
   rw [blocksOf_present present, ← append_assoc] at freeable ⊢
   have ready : Freeable (wiped state n (before ++ blocksOf state below)) _ := freeable.wiped
   have inUse := ready.2 _ mem_cons_self
   rw [looped present, Option.bind_some, ← value_root n, bfree_eq inUse, Option.bind_some,
    wiped_free, wiped_clear]

theorem directSlots_succ (n : ℕ) : directSlots (n + 1) = directSlots n ++ [.root n] := by
 unfold directSlots
 rw [range_succ, flatMap_append, flatMap_singleton]

theorem freeDirect_eq (freeable : Freeable state (blocksOf state (directSlots n))) :
 (List.range n).foldlM freeDirect state =
  some (wiped state n (blocksOf state (directSlots n))) := by
 induction n with
 | zero => exact congrArg some (wiped_zero.symm)
 | succ n ih =>
  have step : freeDirect (wiped state n (blocksOf state (directSlots n))) n =
   some (wiped state (n + 1) (blocksOf state (directSlots (n + 1)))) := by
   rw [directSlots_succ, blocksOf_append] at freeable ⊢
   have part : (if state.addrs n = 0 then _ else _) =
    some (wiped state (n + 1) (blocksOf state (directSlots n) ++
     blocksOf state ([] ++ [.root n]))) :=
    part_eq freeable (fun _ => rfl) fun _ => congrArg some
     (congrArg (wiped state n) (append_nil _).symm)
   unfold freeDirect
   rw [wiped_addrs, Option.map_eq_bind]
   exact part
  rw [directSlots_succ, blocksOf_append] at freeable
  rw [range_succ, foldlM_append, ih freeable.left]
  exact (bind_pure _).trans step

theorem freeSingle_eq
 (freeable : Freeable state
  (before ++ blocksOf state (entrySlots (.root ndirect) ++ [.root ndirect]))) :
 (wiped state ndirect before).freeSingle = some (wiped state (ndirect + 1)
  (before ++ blocksOf state (entrySlots (.root ndirect) ++ [.root ndirect]))) := by
 unfold freeSingle
 rw [wiped_addrs]
 refine part_eq freeable (fun none => blocksOf_below ((value_root ndirect).trans none)) ?_
 intro present
 rw [blocksOf_append, ← append_assoc] at freeable
 rw [← wiped_free]
 have there : (root ndirect).value state ≠ 0 := present
 exact freeEntries_eq there freeable.left.wiped

def doubleSlots : List Slot := (List.range nindirect).flatMap childSlots

theorem freeDouble_eq
 (freeable : Freeable state
  (before ++ blocksOf state (doubleSlots ++ [.root (ndirect + 1)]))) :
 (wiped state (ndirect + 1) before).freeDouble = some (wiped state (ndirect + 2)
  (before ++ blocksOf state (doubleSlots ++ [.root (ndirect + 1)]))) := by
 unfold freeDouble
 rw [wiped_addrs]
 refine part_eq freeable (fun none => ?_) fun present => ?_
 · unfold doubleSlots
   rw [← flatMap_blocksOf, flatMap_eq_nil_iff]
   intro i _
   have child : (sub (.root (ndirect + 1)) i).value state = 0 := by
    rw [value_sub, value_root, if_pos none]
   rw [childSlots, blocksOf_append, blocksOf_below child, blocksOf_absent child]
   rfl
 · rw [blocksOf_append, ← append_assoc] at freeable
   rw [← wiped_free]
   have ready : Freeable (wiped state (ndirect + 1) before) _ := freeable.left.wiped
   unfold doubleSlots at ready ⊢
   rw [← flatMap_blocksOf] at ready ⊢
   exact foldlM_free (fun i _ earlier freeable => freeChild_eq present rfl freeable) ready

/-- All slots, in the order in which `itrunc` frees their blocks. -/
def treeSlots : List Slot :=
 directSlots ndirect ++ (entrySlots (.root ndirect) ++ [.root ndirect]) ++
  (doubleSlots ++ [.root (ndirect + 1)])

theorem mem_directSlots :
 slot ∈ directSlots n ↔ ∃ i < n, slot = .root i := by
 unfold directSlots
 simp

theorem mem_entrySlots :
 slot ∈ entrySlots parent ↔ ∃ j < nindirect, slot = .sub parent j := by
 unfold entrySlots
 simp

theorem mem_childSlots {i : ℕ} : slot ∈ childSlots i ↔
 (∃ j < nindirect, slot = .sub (.sub (.root (ndirect + 1)) i) j) ∨
  slot = .sub (.root (ndirect + 1)) i := by
 unfold childSlots
 rw [mem_append, mem_entrySlots, mem_singleton]

theorem mem_treeSlots : slot ∈ treeSlots ↔ slot.Valid := by
 unfold treeSlots doubleSlots
 simp only [mem_append, mem_directSlots, mem_entrySlots, mem_flatMap, mem_range,
  mem_childSlots, mem_singleton]
 constructor
 · rintro ((⟨i, within, rfl⟩ | ⟨j, within, rfl⟩ | rfl) |
    ⟨i, child, ⟨j, within, rfl⟩ | rfl⟩ | rfl)
   · exact .root (Nat.lt_add_right 2 within)
   · exact .sub .single within
   · exact Slot.Indirect.single.valid
   · exact .sub (.entry child) within
   · exact .sub .double child
   · exact Slot.Indirect.double.valid
 · intro valid
   cases valid with
   | @root i within =>
    rcases Nat.lt_or_ge i ndirect with direct | indirect
    · exact .inl (.inl ⟨i, direct, rfl⟩)
    · rcases Nat.eq_or_lt_of_le indirect with same | later
      · simp_all
      · exact .inr (.inr (congrArg root (by omega)))
   | @sub parent j indirect within =>
    cases indirect with
    | single => exact .inl (.inr (.inl ⟨j, within, rfl⟩))
    | double => exact .inr (.inl ⟨j, within, .inr rfl⟩)
    | @entry n child => simp_all

theorem directSlots_nodup (n : ℕ) : (directSlots n).Nodup := by
 unfold directSlots
 rw [← map_eq_flatMap]
 exact nodup_range.map fun _ _ same => root.inj same

theorem entrySlots_nodup (parent : Slot) : (entrySlots parent).Nodup := by
 unfold entrySlots
 rw [← map_eq_flatMap]
 exact nodup_range.map fun _ _ same => (sub.inj same).2

theorem childSlots_nodup (i : ℕ) : (childSlots i).Nodup := by
 refine nodup_append.mpr ⟨entrySlots_nodup _, nodup_singleton _, ?_⟩
 intro slot below other child same
 obtain ⟨j, -, rfl⟩ := mem_entrySlots.mp below
 simp_all

theorem doubleSlots_nodup : doubleSlots.Nodup := by
 refine nodup_flatMap.mpr ⟨fun i _ => childSlots_nodup i, ?_⟩
 refine nodup_range.imp fun {left right} different slot inLeft inRight => ?_
 rcases mem_childSlots.mp inLeft with ⟨j, -, rfl⟩ | rfl
 · rcases mem_childSlots.mp inRight with ⟨k, -, same⟩ | same
   · simp_all
   · cases (sub.inj same).1
 · rcases mem_childSlots.mp inRight with ⟨k, -, same⟩ | same
   · cases (sub.inj same).1
   · exact different (sub.inj same).2

theorem rootSlots_nodup (n : ℕ) (nodup : below.Nodup) (apart : root n ∉ below) :
 (below ++ [root n]).Nodup := by
 grind

/-- The index in `addrs` above a slot. -/
def Slot.base : Slot → ℕ
 | .root i => i
 | .sub parent _ => parent.base

theorem base_directSlots : ∀ slot ∈ directSlots n, slot.base < n := by
 intro slot member
 obtain ⟨i, within, rfl⟩ := mem_directSlots.mp member
 exact within

theorem base_entrySlots : ∀ slot ∈ entrySlots parent, slot.base = parent.base := by
 intro slot member
 obtain ⟨j, -, rfl⟩ := mem_entrySlots.mp member
 rfl

theorem base_doubleSlots : ∀ slot ∈ doubleSlots, slot.base = ndirect + 1 := by
 intro slot member
 obtain ⟨i, -, inside⟩ := mem_flatMap.mp member
 rcases mem_childSlots.mp inside with ⟨j, -, rfl⟩ | rfl
 · rfl
 · rfl

theorem root_notMem_entrySlots : root n ∉ entrySlots parent := by
 intro member
 obtain ⟨j, -, same⟩ := mem_entrySlots.mp member
 cases same

theorem root_notMem_doubleSlots : root n ∉ doubleSlots := by
 intro member
 obtain ⟨i, -, inside⟩ := mem_flatMap.mp member
 rcases mem_childSlots.mp inside with ⟨j, -, same⟩ | same
 · cases same
 · cases same

theorem base_append (all : ∀ slot ∈ below, slot.base = n) :
 ∀ slot ∈ below ++ [root n], slot.base = n := by
 intro slot member
 rcases mem_append.mp member with inside | last
 · exact all slot inside
 · rw [mem_singleton.mp last]
   rfl

theorem treeSlots_nodup : treeSlots.Nodup := by
 have single := rootSlots_nodup ndirect (entrySlots_nodup (.root ndirect))
  root_notMem_entrySlots
 have double := rootSlots_nodup (ndirect + 1) doubleSlots_nodup root_notMem_doubleSlots
 have singleBase : ∀ slot ∈ entrySlots (.root ndirect) ++ [.root ndirect], slot.base = ndirect :=
  base_append base_entrySlots
 have doubleBase : ∀ slot ∈ doubleSlots ++ [.root (ndirect + 1)], slot.base = ndirect + 1 :=
  base_append base_doubleSlots
 refine nodup_append.mpr ⟨nodup_append.mpr ⟨directSlots_nodup _, single, ?_⟩,
  double, ?_⟩
 · rintro slot direct other inSingle rfl
   have below := base_directSlots slot direct
   have here := singleBase slot inSingle
   omega
 · rintro slot earlier other inDouble rfl
   have here := doubleBase slot inDouble
   rcases mem_append.mp earlier with direct | inSingle
   · have below := base_directSlots slot direct
     omega
   · have before := singleBase slot inSingle
     omega

def treeBlocks (state : State) : List ℕ := blocksOf state treeSlots

theorem mem_treeBlocks : block ∈ treeBlocks state ↔ InTree state block := by
 unfold treeBlocks blocksOf InTree
 simp only [mem_map, mem_filter, mem_treeSlots, decide_eq_true_eq]
 constructor
 · grind
 · grind

theorem treeBlocks_freeable (formed : WellFormed state) : Freeable state (treeBlocks state) := by
 refine ⟨?_, fun block member => formed.mem_used (mem_treeBlocks.mp member)⟩
 refine List.Nodup.map_on ?_ (treeSlots_nodup.filter _)
 intro left leftMember right rightMember same
 obtain ⟨leftSlot, present⟩ := mem_filter.mp leftMember
 obtain ⟨rightSlot, -⟩ := mem_filter.mp rightMember
 exact formed.distinct left right (mem_treeSlots.mp leftSlot) (mem_treeSlots.mp rightSlot)
  (of_decide_eq_true present) same

theorem itrunc_eq (formed : WellFormed state) : state.itrunc =
 some { wiped state (ndirect + 2) (treeBlocks state) with size := 0 } := by
 have freeable := treeBlocks_freeable formed
 unfold treeBlocks treeSlots at freeable ⊢
 rw [blocksOf_append, blocksOf_append] at freeable ⊢
 unfold itrunc
 simp only [freeDirect_eq freeable.left.left, freeSingle_eq freeable.left,
  freeDouble_eq freeable, Option.bind_eq_bind, Option.bind_some]

/-- What `itrunc` does to a tree that is well formed. -/
structure Truncated (state next : State) : Prop where
 freed : ∃ blocks, next.freed = state.freed ++ blocks ∧ blocks.Nodup ∧
  ∀ block, block ∈ blocks ↔ InTree state block
 addrs : ∀ i < ndirect + 2, next.addrs i = 0
 used : ∀ block, block ∈ next.used ↔ block ∈ state.used ∧ ¬ InTree state block

theorem itrunc_truncated (formed : WellFormed state) :
 ∃ next, state.itrunc = some next ∧ Truncated state next := by
 refine ⟨_, itrunc_eq formed, ⟨treeBlocks state, rfl, (treeBlocks_freeable formed).1,
  fun _ => mem_treeBlocks⟩, fun i within => if_pos within, fun block => ?_⟩
 change block ∈ state.used \ (treeBlocks state).toFinset ↔ _
 rw [Finset.mem_sdiff, mem_toFinset, mem_treeBlocks]

theorem Truncated.absent {next : State} (truncated : Truncated state next) :
 ∀ slot : Slot, slot.Valid → slot.value next = 0 := by
 intro slot valid
 induction slot with
 | root i =>
  cases valid with
  | root within => exact truncated.addrs i within
 | sub parent j ih =>
  cases valid with
  | sub indirect within => rw [value_sub, if_pos (ih indirect.valid)]

theorem Truncated.formed {next : State} (truncated : Truncated state next) : WellFormed next where
 distinct left _ valid _ present := absurd (truncated.absent left valid) present
 allocated slot valid present := absurd (truncated.absent slot valid) present

/-! ### Runs -/

inductive Event where
 | bmap (bn : ℕ)
 | itrunc

structure Session where
 state : State
 mapped : List (ℕ × ℕ)

def Session.step (pick : Balloc) (session : Session) : Event → Option Session
 | .bmap bn => (session.state.bmap pick bn).map fun (block, next) =>
  ⟨next, (bn, block) :: session.mapped⟩
 | .itrunc => session.state.itrunc.map fun next => ⟨next, []⟩

structure Correct (pick : Balloc) (start : State) (session : Session) : Prop where
 formed : WellFormed session.state
 /-- A block that was returned is returned again, and nothing changes. -/
 again : ∀ bn block, (bn, block) ∈ session.mapped →
  session.state.bmap pick bn = some (block, session.state)
 different : ∀ bn block other otherBlock, (bn, block) ∈ session.mapped →
  (other, otherBlock) ∈ session.mapped → (bn = other ↔ block = otherBlock)
 data : ∀ bn block, (bn, block) ∈ session.mapped → ∀ slot : Slot, slot.Indirect →
  slot.value session.state ≠ block
 returns : ∀ bn < maxfile, session.state.bmap pick bn = none → ∃ used, pick used = none
 /-- The blocks in use are those of the tree and those that were not in it from the start. -/
 accounted : ∀ block, block ∈ session.state.used ↔
  (block ∈ start.used ∧ ¬ InTree start block) ∨ InTree session.state block
 truncates : ∃ next, session.state.itrunc = some next ∧ Truncated session.state next

structure Invariant (start : State) (session : Session) : Prop where
 formed : WellFormed session.state
 mapped : ∀ bn block, (bn, block) ∈ session.mapped →
  bn < maxfile ∧ block ≠ 0 ∧ (Slot.ofBlock bn).value session.state = block
 accounted : ∀ block, block ∈ session.state.used ↔
  (block ∈ start.used ∧ ¬ InTree start block) ∨ InTree session.state block
 apart : ∀ block, InTree session.state block → ¬ (block ∈ start.used ∧ ¬ InTree start block)

variable {pick : Balloc} {start : State} {session next : Session} {event : Event}

theorem bmap_within {bn : ℕ} {next : State} (taken : state.bmap pick bn = some (block, next)) :
 bn < maxfile := by
 by_contra outside
 unfold maxfile at outside
 unfold bmap at taken
 rw [if_neg (by omega)] at taken
 have out : ¬ bn - ndirect < nindirect := by omega
 have far : ¬ bn - ndirect - nindirect < nindirect * nindirect := by omega
 simp_all

theorem Invariant.initial (formed : WellFormed start) : Invariant start ⟨start, []⟩ where
 formed := formed
 mapped _ _ none := absurd none not_mem_nil
 accounted block := by
  by_cases inTree : InTree start block
  · exact iff_of_true (formed.mem_used inTree) (.inr inTree)
  · rw [or_iff_left inTree, and_iff_left inTree]
 apart _ inTree other := other.2 inTree

theorem Invariant.step (invariant : Invariant start session) (picks : Fresh pick)
 (taken : session.step pick event = some next) : Invariant start next := by
 cases event with
 | bmap bn =>
  obtain ⟨⟨block, after⟩, mapped, rfl⟩ := Option.map_eq_some_iff.mp taken
  have within := bmap_within mapped
  obtain ⟨extended, here, nonzero⟩ := bmap_extended picks invariant.formed within mapped
  refine ⟨extended.formed, fun other found member => ?_, fun found => ?_,
   fun found inTree => ?_⟩
  · rcases mem_cons.mp member with new | old
    · simp_all
    · obtain ⟨otherWithin, present, was⟩ := invariant.mapped other found old
      subst was
      exact ⟨otherWithin, present, extended.kept _ (ofBlock_valid otherWithin) present⟩
  · rw [extended.used, invariant.accounted, or_assoc]
    refine or_congr_right (or_iff_right_of_imp ?_)
    rintro ⟨present, slot, valid, rfl⟩
    exact ⟨present, slot, valid, extended.kept slot valid present⟩
  · rcases extended.fresh found inTree with before | new
    · exact invariant.apart found before
    · exact fun other => new ((invariant.accounted found).mpr (.inl other))
 | itrunc =>
  obtain ⟨after, done, rfl⟩ := Option.map_eq_some_iff.mp taken
  obtain ⟨other, same, truncated⟩ := itrunc_truncated invariant.formed
  cases same.symm.trans done
  have empty (block : ℕ) : ¬ InTree after block := by
   rintro ⟨nonzero, slot, valid, rfl⟩
   exact nonzero (truncated.absent slot valid)
  refine ⟨truncated.formed, fun _ _ none => absurd none not_mem_nil, fun block => ?_,
   fun block inTree => absurd inTree (empty block)⟩
  rw [or_iff_left (empty block), truncated.used, invariant.accounted]
  constructor
  · rintro ⟨other | inTree, outside⟩
    · exact other
    · exact absurd inTree outside
  · exact fun other => ⟨.inl other, fun inTree => invariant.apart block inTree other⟩

theorem Invariant.correct (invariant : Invariant start session) :
 Correct pick start session where
 formed := invariant.formed
 again bn block member := by
  obtain ⟨within, nonzero, here⟩ := invariant.mapped bn block member
  subst here
  exact bmap_present within nonzero
 different bn block other otherBlock member otherMember := by
  obtain ⟨within, nonzero, here⟩ := invariant.mapped bn block member
  obtain ⟨otherWithin, -, there⟩ := invariant.mapped other otherBlock otherMember
  constructor
  · rintro rfl
    exact here.symm.trans there
  · rintro rfl
    have sameSlot := invariant.formed.distinct _ _ (ofBlock_valid within)
     (ofBlock_valid otherWithin) (here ▸ nonzero) (here.trans there.symm)
    exact ofBlock_injective sameSlot
 data bn block member slot indirect same := by
  obtain ⟨within, nonzero, here⟩ := invariant.mapped bn block member
  have sameSlot := invariant.formed.distinct slot _ indirect.valid
   (ofBlock_valid within) (same ▸ nonzero) (same.trans here.symm)
  exact ofBlock_not_indirect (sameSlot ▸ indirect)
 returns _ within failed := bmap_none within failed
 accounted := invariant.accounted
 truncates := itrunc_truncated invariant.formed

/-- Any calls of `bmap` and `itrunc` on an inode with a well-formed tree. -/
theorem bmap_itrunc_correct (pick : Balloc) (picks : Fresh pick) (start : State)
 (formed : WellFormed start) (events : List Event) (final : Session)
 (run : Run (ofFunction (Session.step pick)) ⟨start, []⟩ events final) :
 Correct pick start final := by
 have invariant : Invariant start final :=
  run.invariant (.initial formed) fun _ _ _ before taken => before.step picks taken
 exact invariant.correct

/-- An allocator that counts the blocks in use, and fails when the next number is taken. -/
def countUsed : Balloc := fun used =>
 if used.card + 1 ∈ used then none else some (used.card + 1)

theorem countUsed_fresh : Fresh countUsed := by
 intro used block picked
 unfold countUsed at picked
 split at picked
 · cases picked
 · grind

def emptyInode : State := ⟨fun _ => 0, 0, fun _ _ => 0, ∅, []⟩

theorem emptyInode_value (slot : Slot) : slot.value emptyInode = 0 := by
 cases slot with
 | root i => rfl
 | sub parent j =>
  rw [value_sub]
  split
  · rfl
  · rfl

theorem bmap_itrunc_correct_three : ∃ final : Session,
 final.mapped = [(267, 6), (11, 3), (0, 1)] ∧ Correct countUsed emptyInode final := by
 obtain ⟨final, same, mapped⟩ : ∃ final,
  replay (Session.step countUsed) ⟨emptyInode, []⟩ [.bmap 0, .bmap 11, .bmap 267] =
   some final ∧ final.mapped = [(267, 6), (11, 3), (0, 1)] := ⟨_, rfl, rfl⟩
 have formed : WellFormed emptyInode :=
  ⟨fun left _ _ _ present => absurd (emptyInode_value left) present,
   fun slot _ present => absurd (emptyInode_value slot) present⟩
 exact ⟨final, mapped, bmap_itrunc_correct countUsed countUsed_fresh emptyInode formed _ final
  (Run.of_replay_all same)⟩

end MyNotes.Xv6.BlockMap
