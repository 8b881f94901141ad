/-
The binary heap of the search notes, with the largest value in front.

An array is a function of its index, and an index outside `[0, mCapacity)` is a fault,
as is a child index that does not fit an `int`.  A loop has one round for each cell.
`remove` only sifts down, so it keeps the heap where the last value is not above the
parent of the cell that it fills.
-/

import MyNotes.Library.BinaryHeap
import Mathlib.Algebra.Group.Nat.Defs

namespace MyNotes.Algorithms

open Library.BinaryHeap Function

structure MaxHeap (α : Type*) where
 mHeap : ℕ → α
 mCapacity : ℕ
 mSize : ℕ

namespace MaxHeap

inductive Fault where
 | outOfRange (index : ℕ)
 | overflow
 | endlessLoop
 deriving DecidableEq

variable {α : Type*}

/-- `cells` is what the new array happens to hold. -/
def new (capacity : ℕ) (cells : ℕ → α) : MaxHeap α := ⟨cells, capacity, 0⟩

def read (self : MaxHeap α) (i : ℕ) : Except Fault α :=
 if i < self.mCapacity then .ok (self.mHeap i) else .error (.outOfRange i)

def write (self : MaxHeap α) (i : ℕ) (value : α) : Except Fault (MaxHeap α) :=
 if i < self.mCapacity then .ok { self with mHeap := update self.mHeap i value }
 else .error (.outOfRange i)

/-- `2 * c + 1`, as an `int`. -/
def leftChild (c : ℕ) : Except Fault ℕ :=
 if 2 * c + 1 < 2 ^ 31 then .ok (2 * c + 1) else .error .overflow

section Ordered

variable [LinearOrder α]

def getIndexFrom (self : MaxHeap α) (data : α) : ℕ → ℕ → Except Fault (Option ℕ)
 | 0, _ => .ok none
 | rest + 1, i =>
  (self.read i).bind fun value =>
   if data = value then .ok (some i) else self.getIndexFrom data rest (i + 1)

def getIndex (self : MaxHeap α) (data : α) : Except Fault (Option ℕ) :=
 self.getIndexFrom data self.mSize 0

/-- `if(l < end && mHeap[l] < mHeap[l+1]) l++;` -/
def largerChild (self : MaxHeap α) (last : ℤ) (l : ℕ) : Except Fault ℕ :=
 if (l : ℤ) < last then
  (self.read l).bind fun left => (self.read (l + 1)).map fun right =>
   if left < right then l + 1 else l
 else .ok l

/-- The loop of `filterdown`; it ends with the place for `tmp`. -/
def filterdownLoop (tmp : α) (last : ℤ) :
 ℕ → MaxHeap α → ℕ → ℕ → Except Fault (MaxHeap α × ℕ)
 | 0, self, c, l => if (l : ℤ) ≤ last then .error .endlessLoop else .ok (self, c)
 | rounds + 1, self, c, l =>
  if (l : ℤ) ≤ last then
   (self.largerChild last l).bind fun l => (self.read l).bind fun child =>
    if tmp ≥ child then .ok (self, c)
    else
     (self.write c child).bind fun self => (leftChild l).bind fun next =>
      filterdownLoop tmp last rounds self l next
  else .ok (self, c)

def filterdown (self : MaxHeap α) (start : ℕ) (last : ℤ) : Except Fault (MaxHeap α) :=
 (leftChild start).bind fun l => (self.read start).bind fun tmp =>
  (filterdownLoop tmp last self.mCapacity self start l).bind fun (self, c) => self.write c tmp

def remove (self : MaxHeap α) (data : α) : Except Fault (MaxHeap α × ℤ) :=
 if self.mSize = 0 then .ok (self, -1)
 else
  (self.getIndex data).bind fun index =>
   match index with
   | none => .ok (self, -1)
   | some index =>
    let self := { self with mSize := self.mSize - 1 }
    (self.read self.mSize).bind fun value => (self.write index value).bind fun self =>
     (self.filterdown index ((self.mSize : ℤ) - 1)).map fun self => (self, 0)

/-- The loop of `filterup`; it ends with the place for `tmp`. -/
def filterupLoop (tmp : α) : ℕ → MaxHeap α → ℕ → ℕ → Except Fault (MaxHeap α × ℕ)
 | 0, self, c, _ => if c > 0 then .error .endlessLoop else .ok (self, c)
 | rounds + 1, self, c, p =>
  if c > 0 then
   (self.read p).bind fun parent =>
    if parent ≥ tmp then .ok (self, c)
    else (self.write c parent).bind fun self => filterupLoop tmp rounds self p ((p - 1) / 2)
  else .ok (self, c)

def filterup (self : MaxHeap α) (start : ℕ) : Except Fault (MaxHeap α) :=
 (self.read start).bind fun tmp =>
  (filterupLoop tmp self.mCapacity self start ((start - 1) / 2)).bind fun (self, c) =>
   self.write c tmp

def insert (self : MaxHeap α) (data : α) : Except Fault (MaxHeap α × ℤ) :=
 if self.mSize = self.mCapacity then .ok (self, -1)
 else
  (self.write self.mSize data).bind fun self => (self.filterup self.mSize).map fun self =>
   ({ self with mSize := self.mSize + 1 }, 0)

inductive Operation (α : Type*) where
 | insert (data : α)
 | remove (data : α)

def apply (self : MaxHeap α) : Operation α → Except Fault (MaxHeap α × ℤ)
 | .insert data => self.insert data
 | .remove data => self.remove data

def run : MaxHeap α → List (Operation α) → Except Fault (MaxHeap α)
 | self, [] => .ok self
 | self, first :: rest => (self.apply first).bind fun (self, _) => self.run rest

/-! ### What the heap is for -/

/-- The values inserted while there was room, without those removed. -/
def valuesAfter (capacity : ℕ) : Multiset α → List (Operation α) → Multiset α
 | values, [] => values
 | values, .insert data :: rest =>
  valuesAfter capacity (if values.card = capacity then values else data ::ₘ values) rest
 | values, .remove data :: rest => valuesAfter capacity (values.erase data) rest

structure Sound (heap : MaxHeap α) (capacity : ℕ) (values : Multiset α) : Prop where
 mCapacity : heap.mCapacity = capacity
 mSize_le : heap.mSize ≤ capacity
 ordered : Ordered heap.mHeap heap.mSize
 holds : contents heap.mHeap heap.mSize = values

/-- An insertion fails on a full heap only, and a removal of an absent value only. -/
def Answered (heap : MaxHeap α) (values : Multiset α) : Operation α → ℤ → Prop
 | .insert _, answer => answer = if heap.mSize = heap.mCapacity then -1 else 0
 | .remove data, answer => answer = if data ∈ values then 0 else -1

/-- The last value is not above the parent of the cell that it is to fill, and the cells are few
enough for the index of a child to be an `int`. -/
def Removable (heap : MaxHeap α) (data : α) : Prop :=
 ∀ index, heap.getIndex data = .ok (some index) →
  heap.mSize ≤ 2 ^ 30 ∧ heap.mHeap (heap.mSize - 1) ≤ heap.mHeap ((index - 1) / 2)

def Allowed (heap : MaxHeap α) : Operation α → Prop
 | .insert _ => True
 | .remove data => heap.Removable data

/-- Every operation of the run is one that is allowed where it is applied. -/
def AllowedThroughout : MaxHeap α → List (Operation α) → Prop
 | _, [] => True
 | heap, first :: rest =>
  heap.Allowed first ∧ ∀ next answer, heap.apply first = .ok (next, answer) →
   AllowedThroughout next rest

/-! ### Reads and writes -/

variable {self : MaxHeap α}

omit [LinearOrder α] in
theorem read_ok {i : ℕ} (inside : i < self.mCapacity) : self.read i = .ok (self.mHeap i) :=
 if_pos inside

omit [LinearOrder α] in
theorem write_ok {i : ℕ} (inside : i < self.mCapacity) (value : α) :
 self.write i value = .ok { self with mHeap := update self.mHeap i value } :=
 if_pos inside

theorem leftChild_ok {c : ℕ} (small : c < 2 ^ 30) : leftChild c = .ok (2 * c + 1) :=
 if_pos (by omega)

theorem getIndexFrom_spec (data : α) (rest i : ℕ) (inside : i + rest ≤ self.mCapacity) :
 ∃ index, self.getIndexFrom data rest i = .ok index ∧
  (∀ found, index = some found → found < i + rest ∧ self.mHeap found = data) ∧
  (index = none → ∀ j, i ≤ j → j < i + rest → self.mHeap j ≠ data) := by
 induction rest generalizing i with
 | zero =>
  refine ⟨none, rfl, nofun, ?_⟩
  intro _ j after before
  omega
 | succ rest ih =>
  unfold getIndexFrom
  rw [read_ok (by omega)]
  simp only [Except.bind]
  by_cases here : data = self.mHeap i
  · rw [if_pos here]
    refine ⟨some i, rfl, ?_, nofun⟩
    intro found same
    cases same
    exact ⟨by omega, here.symm⟩
  · rw [if_neg here]
    obtain ⟨index, done, present, absent⟩ := ih (i + 1) (by omega)
    refine ⟨index, done, ?_, ?_⟩
    · intro found same
      obtain ⟨below, holds⟩ := present found same
      exact ⟨by omega, holds⟩
    · intro isNone j after before
      by_cases first : j = i
      · rw [first]
        exact Ne.symm here
      · exact absent isNone j (by omega) (by omega)

theorem getIndex_spec (inside : self.mSize ≤ self.mCapacity) (data : α) :
 ∃ index, self.getIndex data = .ok index ∧
  (∀ found, index = some found → found < self.mSize ∧ self.mHeap found = data) ∧
  (index = none → data ∉ contents self.mHeap self.mSize) := by
 obtain ⟨index, done, present, absent⟩ := self.getIndexFrom_spec data self.mSize 0 (by omega)
 rw [Nat.zero_add] at present absent
 refine ⟨index, done, present, ?_⟩
 intro isNone member
 obtain ⟨i, below, holds⟩ := mem_contents.mp member
 simp_all

/-! ### Sifting down -/

/-- What a sift leaves: the array with `tmp` at its place is a heap of the same values. -/
structure Sifted (before after : MaxHeap α) (tmp : α) (c place size : ℕ) : Prop where
 mCapacity : after.mCapacity = before.mCapacity
 mSize : after.mSize = before.mSize
 inside : place < before.mCapacity
 ordered : Ordered (update after.mHeap place tmp) size
 holds : contents (update after.mHeap place tmp) size =
  contents (update before.mHeap c tmp) size

variable {size : ℕ}

theorem largerChild_spec {l : ℕ} (below : l < size) (inside : size ≤ self.mCapacity) :
 ∃ child, self.largerChild ((size : ℤ) - 1) l = .ok child ∧ child < size ∧
  (child = l ∨ child = l + 1) ∧ self.mHeap l ≤ self.mHeap child ∧
  (l + 1 < size → self.mHeap (l + 1) ≤ self.mHeap child) := by
 unfold largerChild
 by_cases two : (l : ℤ) < (size : ℤ) - 1
 · rw [if_pos two, read_ok (by omega), read_ok (by omega)]
   simp only [Except.bind, Except.map]
   by_cases less : self.mHeap l < self.mHeap (l + 1)
   · rw [if_pos less]
     exact ⟨l + 1, rfl, by omega, Or.inr rfl, less.le, fun _ => le_rfl⟩
   · grind
 · rw [if_neg two]
   exact ⟨l, rfl, below, Or.inl rfl, le_rfl, fun more => by omega⟩

theorem sifted_leaf {tmp : α} {c : ℕ} (place : c < self.mCapacity)
 (ready : DownReady (update self.mHeap c tmp) size c)
 (childless : ¬ ((2 * c + 1 : ℕ) : ℤ) ≤ (size : ℤ) - 1) : Sifted self self tmp c c size where
 mCapacity := rfl
 mSize := rfl
 inside := place
 ordered := by
  refine ready.finish ?_
  intro i positive below under
  omega
 holds := rfl

theorem filterdownLoop_spec (small : size ≤ 2 ^ 30) (tmp : α) (rounds c : ℕ)
 (enough : size ≤ rounds + c) (inside : size ≤ self.mCapacity) (place : c < self.mCapacity)
 (ready : DownReady (update self.mHeap c tmp) size c) :
 ∃ after last, filterdownLoop tmp ((size : ℤ) - 1) rounds self c (2 * c + 1) =
  .ok (after, last) ∧ Sifted self after tmp c last size := by
 induction rounds generalizing self c with
 | zero =>
  unfold filterdownLoop
  have childless : ¬ ((2 * c + 1 : ℕ) : ℤ) ≤ (size : ℤ) - 1 := by omega
  rw [if_neg childless]
  exact ⟨self, c, rfl, sifted_leaf place ready childless⟩
 | succ rounds ih =>
  unfold filterdownLoop
  by_cases children : ((2 * c + 1 : ℕ) : ℤ) ≤ (size : ℤ) - 1
  · rw [if_pos children]
    obtain ⟨child, chosen, below, either, left, right⟩ :=
     self.largerChild_spec (show 2 * c + 1 < size by omega) inside
    have isChild : (child - 1) / 2 = c := by omega
    have away : child ≠ c := by omega
    have largest : ∀ i, 0 < i → i < size → (i - 1) / 2 = c →
     update self.mHeap c tmp i ≤ update self.mHeap c tmp child := by
     intro i positive iBelow under
     rw [update_of_ne (by omega), update_of_ne away]
     have one : i = 2 * c + 1 ∨ i = 2 * c + 1 + 1 := by omega
     rcases one with isLeft | isRight
     · rw [isLeft]
       exact left
     · rw [isRight]
       exact right (by omega)
    rw [chosen]
    simp only [Except.bind]
    rw [read_ok (by omega)]
    dsimp only
    by_cases stops : tmp ≥ self.mHeap child
    · rw [if_pos stops]
      refine ⟨self, c, rfl, rfl, rfl, place, ready.finish ?_, rfl⟩
      grind
    · rw [if_neg stops, write_ok place, leftChild_ok (by omega)]
      have less : update self.mHeap c tmp c <
       update self.mHeap c tmp child := by
       rw [update_self, update_of_ne away]
       exact not_le.mp stops
      have moved := ready.swap (by omega) below isChild largest less
      have swapped := contents_swap (update self.mHeap c tmp)
       (show c < size by omega) below
      rw [← update_update_swap self.mHeap away.symm tmp] at moved swapped
      obtain ⟨after, last, done, sifted⟩ :=
       @ih { self with mHeap := update self.mHeap c (self.mHeap child) } child
        (by omega) inside (show child < self.mCapacity by omega) moved
      exact ⟨after, last, done, sifted.mCapacity, sifted.mSize, sifted.inside, sifted.ordered,
       sifted.holds.trans swapped⟩
  · rw [if_neg children]
    exact ⟨self, c, rfl, sifted_leaf place ready children⟩

theorem filterdown_spec {start size : ℕ} (small : size ≤ 2 ^ 30) (startSmall : start < 2 ^ 30)
 (inside : size ≤ self.mCapacity) (place : start < self.mCapacity)
 (ready : DownReady self.mHeap size start) :
 ∃ after, self.filterdown start ((size : ℤ) - 1) = .ok after ∧
  after.mCapacity = self.mCapacity ∧ after.mSize = self.mSize ∧
  Ordered after.mHeap size ∧ contents after.mHeap size = contents self.mHeap size := by
 have whole := update_eq_self start self.mHeap
 obtain ⟨middle, last, done, sifted⟩ := self.filterdownLoop_spec small (self.mHeap start)
  self.mCapacity start (by omega) inside place (whole.symm ▸ ready)
 unfold filterdown
 rw [leftChild_ok startSmall, read_ok place]
 simp only [Except.bind]
 rw [done]
 dsimp only
 rw [write_ok (sifted.mCapacity ▸ sifted.inside)]
 exact ⟨_, rfl, sifted.mCapacity, sifted.mSize, sifted.ordered,
  sifted.holds.trans (by rw [whole])⟩

/-! ### Sifting up -/

theorem filterupLoop_spec (tmp : α) (rounds c : ℕ) (enough : c ≤ rounds)
 (inside : size ≤ self.mCapacity) (below : c < size)
 (ready : UpReady (update self.mHeap c tmp) size c) :
 ∃ after last, filterupLoop tmp rounds self c ((c - 1) / 2) = .ok (after, last) ∧
  Sifted self after tmp c last size := by
 induction rounds generalizing self c with
 | zero =>
  unfold filterupLoop
  rw [if_neg (by omega)]
  exact ⟨self, c, rfl, rfl, rfl, by omega, ready.finish fun positive => by omega, rfl⟩
 | succ rounds ih =>
  unfold filterupLoop
  by_cases root : c > 0
  · rw [if_pos root, read_ok (by omega)]
    simp only [Except.bind]
    have away : (c - 1) / 2 ≠ c := by omega
    by_cases stops : self.mHeap ((c - 1) / 2) ≥ tmp
    · rw [if_pos stops]
      refine ⟨self, c, rfl, rfl, rfl, by omega, ready.finish fun _ => ?_, rfl⟩
      simp_all
    · rw [if_neg stops, write_ok (by omega)]
      have less : update self.mHeap c tmp ((c - 1) / 2) <
       update self.mHeap c tmp c := by
       rw [update_self, update_of_ne away]
       exact not_le.mp stops
      have moved := ready.swap root less
      have swapped := contents_swap (update self.mHeap c tmp) below
       (show (c - 1) / 2 < size by omega)
      rw [← update_update_swap self.mHeap away.symm tmp] at moved swapped
      obtain ⟨after, last, done, sifted⟩ :=
       @ih { self with mHeap := update self.mHeap c (self.mHeap ((c - 1) / 2)) }
        ((c - 1) / 2) (by omega) inside (by omega) moved
      exact ⟨after, last, done, sifted.mCapacity, sifted.mSize, sifted.inside, sifted.ordered,
       sifted.holds.trans swapped⟩
  · rw [if_neg root]
    exact ⟨self, c, rfl, rfl, rfl, by omega, ready.finish fun positive => by omega, rfl⟩

theorem filterup_spec {start size : ℕ} (inside : size ≤ self.mCapacity) (below : start < size)
 (ready : UpReady self.mHeap size start) :
 ∃ after, self.filterup start = .ok after ∧
  after.mCapacity = self.mCapacity ∧ after.mSize = self.mSize ∧
  Ordered after.mHeap size ∧ contents after.mHeap size = contents self.mHeap size := by
 have whole := update_eq_self start self.mHeap
 obtain ⟨middle, last, done, sifted⟩ := self.filterupLoop_spec (self.mHeap start)
  self.mCapacity start (by omega) inside below (whole.symm ▸ ready)
 unfold filterup
 rw [read_ok (by omega)]
 simp only [Except.bind]
 rw [done]
 dsimp only
 rw [write_ok (sifted.mCapacity ▸ sifted.inside)]
 exact ⟨_, rfl, sifted.mCapacity, sifted.mSize, sifted.ordered,
  sifted.holds.trans (by rw [whole])⟩

/-! ### The operations -/

variable {capacity : ℕ} {values : Multiset α}

theorem Sound.card (sound : Sound self capacity values) : values.card = self.mSize := by
 rw [← sound.holds, card_contents]

theorem insert_sound (sound : Sound self capacity values) (data : α) :
 ∃ next answer, self.insert data = .ok (next, answer) ∧
  self.Answered values (.insert data) answer ∧
  Sound next capacity (valuesAfter capacity values [.insert data]) := by
 unfold insert
 dsimp only [Answered, valuesAfter]
 rw [sound.card, sound.mCapacity]
 by_cases full : self.mSize = capacity
 · simp_all
 · rw [if_neg full, if_neg full, if_neg full]
   have le := sound.mSize_le
   have room : self.mSize < self.mCapacity := by
    rw [sound.mCapacity]
    omega
   rw [write_ok room]
   simp only [Except.bind]
   obtain ⟨after, done, mCapacity, mSize, ordered, holds⟩ :=
    @filterup_spec _ _ { self with mHeap := update self.mHeap self.mSize data }
     self.mSize (self.mSize + 1) room (Nat.lt_succ_self _) (sound.ordered.upReady data)
   rw [done]
   dsimp only at mCapacity mSize holds
   refine ⟨_, 0, rfl, rfl, mCapacity.trans sound.mCapacity, ?_, ?_, ?_⟩
   · dsimp only
     omega
   · rw [mSize]
     exact ordered
   · rw [mSize, holds, contents_succ, update_self,
      contents_update_outside _ (Nat.le_refl _), sound.holds]

variable {index : ℕ}

theorem contents_without_last (cells : ℕ → α) {last : ℕ} (below : index ≤ last) :
 contents (update cells index (cells last)) last =
  (contents cells (last + 1)).erase (cells index) := by
 rw [contents_succ]
 by_cases same : index = last
 · simp_all
 · rw [← contents_update cells (show index < last by omega) (cells last),
    Multiset.erase_cons_head]

section

variable (sound : Sound self capacity values)
include sound

theorem remove_found {data : α} {last : ℕ} (found : self.getIndex data = .ok (some index))
 (size : self.mSize = last + 1) :
 self.remove data =
  (filterdown { self with
   mHeap := update self.mHeap index (self.mHeap last)
   mSize := last } index ((last : ℤ) - 1)).map fun self => (self, 0) := by
 have le := sound.mSize_le
 obtain ⟨other, again, present, -⟩ :=
  self.getIndex_spec (sound.mCapacity ▸ sound.mSize_le) data
 cases found.symm.trans again
 obtain ⟨below, -⟩ := present index rfl
 have room : last < self.mCapacity := by
  rw [sound.mCapacity]
  omega
 unfold remove
 rw [if_neg (by omega), found]
 simp only [Except.bind]
 rw [size, Nat.add_sub_cancel]
 have reads : read { self with mSize := last } last = .ok (self.mHeap last) := read_ok room
 have writes : write { self with mSize := last } index (self.mHeap last) = .ok { self with
  mHeap := update self.mHeap index (self.mHeap last)
  mSize := last } := if_pos (show index < self.mCapacity by omega)
 rw [reads]
 dsimp only
 rw [writes]

theorem remove_sound (data : α) (removable : self.Removable data) :
 ∃ next answer, self.remove data = .ok (next, answer) ∧
  self.Answered values (.remove data) answer ∧
  Sound next capacity (valuesAfter capacity values [.remove data]) := by
 dsimp only [Answered, valuesAfter]
 obtain ⟨index, found, present, absent⟩ :=
  self.getIndex_spec (sound.mCapacity ▸ sound.mSize_le) data
 cases index with
 | none =>
  have missing : data ∉ values := by
   rw [← sound.holds]
   exact absent rfl
  rw [if_neg missing, Multiset.erase_of_notMem missing]
  refine ⟨self, -1, ?_, rfl, sound⟩
  unfold remove
  split
  · rfl
  · rw [found]
    rfl
 | some index =>
  obtain ⟨below, holds⟩ := present index rfl
  obtain ⟨small, fits⟩ := removable index found
  have member : data ∈ values := by
   rw [← sound.holds]
   exact mem_contents.mpr ⟨index, below, holds⟩
  obtain ⟨last, size⟩ : ∃ last, self.mSize = last + 1 := ⟨self.mSize - 1, by omega⟩
  have le := sound.mSize_le
  have ordered := sound.ordered
  rw [size] at ordered
  rw [size, Nat.add_sub_cancel] at fits
  rw [if_pos member, remove_found sound found size]
  have room : last < self.mCapacity := by
   rw [sound.mCapacity]
   omega
  obtain ⟨after, done, mCapacity, mSize, afterOrdered, afterHolds⟩ :=
   @filterdown_spec _ _ { self with
    mHeap := update self.mHeap index (self.mHeap last)
    mSize := last } index last (by omega) (by omega) room.le
    (show index < self.mCapacity by omega) (ordered.downReady (by omega) fun _ => fits)
  rw [done]
  dsimp only at mCapacity mSize
  refine ⟨after, 0, rfl, rfl, mCapacity.trans sound.mCapacity, ?_, ?_, ?_⟩
  · omega
  · rw [mSize]
    exact afterOrdered
  · rw [mSize, afterHolds, contents_without_last _ (by omega), ← size, sound.holds, holds]

theorem apply_sound (operation : Operation α) (allowed : self.Allowed operation) :
 ∃ next answer, self.apply operation = .ok (next, answer) ∧
  self.Answered values operation answer ∧
  Sound next capacity (valuesAfter capacity values [operation]) := by
 cases operation with
 | insert data => exact insert_sound sound data
 | remove data => exact remove_sound sound data allowed

end

theorem valuesAfter_cons (capacity : ℕ) (values : Multiset α) (first : Operation α)
 (rest : List (Operation α)) :
 valuesAfter capacity values (first :: rest) =
  valuesAfter capacity (valuesAfter capacity values [first]) rest := by
 cases first <;> rfl

theorem run_sound (sound : Sound self capacity values) (operations : List (Operation α))
 (allowed : self.AllowedThroughout operations) :
 ∃ final, self.run operations = .ok final ∧
  Sound final capacity (valuesAfter capacity values operations) := by
 induction operations generalizing self values with
 | nil => exact ⟨self, rfl, sound⟩
 | cons first rest ih =>
  obtain ⟨next, answer, applied, -, kept⟩ := apply_sound sound first allowed.1
  unfold run
  rw [applied, valuesAfter_cons]
  exact ih kept (allowed.2 next answer applied)

theorem new_sound (capacity : ℕ) (cells : ℕ → α) : Sound (new capacity cells) capacity 0 where
 mCapacity := rfl
 mSize_le := Nat.zero_le capacity
 ordered i _ below := absurd below (Nat.not_lt_zero i)
 holds := rfl

/-- A run whose removals are all allowed accesses no cell outside the array and leaves a heap of
the values inserted and not removed; each operation fails when it has to, and not otherwise. -/
theorem maxHeap_sound (capacity : ℕ) (cells : ℕ → α) (operations : List (Operation α))
 (allowed : (new capacity cells).AllowedThroughout operations) :
 ∃ heap, (new capacity cells).run operations = .ok heap ∧
  Sound heap capacity (valuesAfter capacity 0 operations) ∧
  ∀ operation, heap.Allowed operation → ∃ next answer,
   heap.apply operation = .ok (next, answer) ∧
   heap.Answered (valuesAfter capacity 0 operations) operation answer := by
 obtain ⟨heap, ran, sound⟩ := run_sound (new_sound capacity cells) operations allowed
 refine ⟨heap, ran, sound, ?_⟩
 intro operation permitted
 obtain ⟨next, answer, applied, answered, -⟩ := apply_sound sound operation permitted
 exact ⟨next, answer, applied, answered⟩

end Ordered

theorem maxHeap_sound_three :
 ∃ heap, (new 3 fun _ => 0).run [.insert 2, .insert 3, .insert 1, .remove 3] = .ok heap ∧
  Sound heap 3 (valuesAfter 3 0 [.insert 2, .insert 3, .insert 1, .remove 3]) ∧
  ∀ operation : Operation ℕ, heap.Allowed operation → ∃ next answer,
   heap.apply operation = .ok (next, answer) ∧
   heap.Answered (valuesAfter 3 0 [.insert 2, .insert 3, .insert 1, .remove 3]) operation
    answer := by
 apply maxHeap_sound
 refine ⟨trivial, fun next answer done => ?_⟩
 cases done
 refine ⟨trivial, fun next answer done => ?_⟩
 cases done
 refine ⟨trivial, fun next answer done => ?_⟩
 cases done
 refine ⟨fun index found => ?_, fun _ _ _ => trivial⟩
 cases found
 decide

/-- The last value is above the parent of the cell that it fills, and stays there. -/
theorem remove_breaks_order :
 ∃ heap : MaxHeap ℕ, (new 6 fun _ => 0).run
  [.insert 9, .insert 2, .insert 8, .insert 0, .insert 1, .insert 7, .remove 0] =
   .ok heap ∧ ¬ Ordered heap.mHeap heap.mSize := by
 refine ⟨_, rfl, ?_⟩
 intro ordered
 have third := ordered 3 (by decide) (by decide)
 revert third
 decide

end MaxHeap

end MyNotes.Algorithms
