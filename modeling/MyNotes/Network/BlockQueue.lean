/-
The blocking queue of the web server's log, over a circular array.

Every operation runs under the mutex of the queue, so calls follow one another.  `m_front` is
the place before the first element and `m_back` the place of the last one.  A `pop` on an empty
queue takes nothing: it waits, or returns false when the wait fails or its time is over.  The
indices stay below the capacity, an `int`, so their arithmetic is exact.
-/

import MyNotes.Library.RingBuffer

namespace MyNotes.Network

open Library.RingBuffer Option List

variable {T : Type}

structure BlockQueue (T : Type) where
 mArray : List T
 mSize : ℕ
 mMaxSize : ℕ
 mFront : ℤ
 mBack : ℤ

inductive QueueCall (T : Type) where
 | push (item : T)
 | pop
 | front
 | back
 | clear
 | full
 | empty
 | size
 deriving DecidableEq

inductive QueueAnswer (T : Type) where
 | done
 | flag (value : Bool)
 /-- The element, if the call returned one. -/
 | item (value : Option T)
 | number (value : ℕ)
 deriving DecidableEq

namespace BlockQueue

/-- A new queue over the elements that `new T[max_size]` makes. -/
def new (array : List T) : BlockQueue T := ⟨array, 0, array.length, -1, -1⟩

section

variable (self : BlockQueue T)

/-- An element of the array, or `none` outside of it. -/
def read (index : ℤ) : Option T :=
 if index < 0 then none else self.mArray[index.toNat]?

def write (index : ℤ) (item : T) : Option (List T) :=
 if 0 ≤ index ∧ index < self.mArray.length then some (self.mArray.set index.toNat item)
 else none

def clear : BlockQueue T :=
 { self with mSize := 0, mFront := -1, mBack := -1 }

def full : Bool := self.mMaxSize ≤ self.mSize

def empty : Bool := self.mSize = 0

def front : Option (Option T) :=
 if self.mSize = 0 then some none else (self.read self.mFront).map some

def back : Option (Option T) :=
 if self.mSize = 0 then some none else (self.read self.mBack).map some

def size : ℕ := self.mSize

def push (item : T) : Option (Bool × BlockQueue T) :=
 if self.mMaxSize ≤ self.mSize then some (false, self)
 else
  let back := (self.mBack + 1) % self.mMaxSize
  (self.write back item).map fun array =>
   (true, { self with mArray := array, mBack := back, mSize := self.mSize + 1 })

def pop : Option (Option T × BlockQueue T) :=
 if self.mSize = 0 then some (none, self)
 else
  let front := (self.mFront + 1) % self.mMaxSize
  (self.read front).map fun item =>
   (some item, { self with mFront := front, mSize := self.mSize - 1 })

/-- One call; `none` is an access outside the array. -/
def call : QueueCall T → Option (QueueAnswer T × BlockQueue T)
 | .push item => (self.push item).map fun result => (.flag result.1, result.2)
 | .pop => self.pop.map fun result => (.item result.1, result.2)
 | .front => self.front.map fun value => (.item value, self)
 | .back => self.back.map fun value => (.item value, self)
 | .clear => some (.done, self.clear)
 | .full => some (.flag self.full, self)
 | .empty => some (.flag self.empty, self)
 | .size => some (.number self.size, self)

end

def answers (self : BlockQueue T) : List (QueueCall T) → Option (List (QueueAnswer T))
 | [] => some []
 | call :: rest => (self.call call).bind fun result =>
  (answers result.2 rest).map (result.1 :: ·)

end BlockQueue

/-! ### A list of bounded length -/

/-- What the queue is for: a list that holds up to `capacity` elements. -/
structure BoundedQueue (T : Type) where
 capacity : ℕ
 items : List T
 fits : items.length ≤ capacity

namespace BoundedQueue

section

variable (self : BoundedQueue T)

def push (item : T) : Bool × BoundedQueue T :=
 if room : self.items.length < self.capacity then
  (true, ⟨self.capacity, self.items ++ [item], by
   rw [List.length_append]
   exact room⟩)
 else (false, self)

def drop : BoundedQueue T :=
 ⟨self.capacity, self.items.tail, Nat.le_trans (by simp) self.fits⟩

def clear : BoundedQueue T := ⟨self.capacity, [], Nat.zero_le _⟩

def call : QueueCall T → QueueAnswer T × BoundedQueue T
 | .push item => (.flag (self.push item).1, (self.push item).2)
 | .pop => (.item self.items.head?, self.drop)
 | .front => (.item self.items.head?, self)
 | .back => (.item self.items.getLast?, self)
 | .clear => (.done, self.clear)
 | .full => (.flag (self.items.length = self.capacity), self)
 | .empty => (.flag self.items.isEmpty, self)
 | .size => (.number self.items.length, self)

end

def answers (self : BoundedQueue T) : List (QueueCall T) → List (QueueAnswer T)
 | [] => []
 | call :: rest => (self.call call).1 :: answers (self.call call).2 rest

def new (capacity : ℕ) : BoundedQueue T := ⟨capacity, [], Nat.zero_le _⟩

end BoundedQueue

/-! ### The elements in the array -/

namespace BlockQueue

variable {queue next : BlockQueue T} {item : T} {index : ℤ}

def contents (self : BlockQueue T) : List T :=
 window self.mArray (self.mFront + 1).toNat self.mSize

structure Sound (queue : BlockQueue T) : Prop where
 sized : queue.mArray.length = queue.mMaxSize
 positive : 0 < queue.mMaxSize
 fits : queue.mSize ≤ queue.mMaxSize
 front : -1 ≤ queue.mFront
 back : -1 ≤ queue.mBack ∧ queue.mBack < queue.mMaxSize
 apart : (queue.mBack + 1).toNat % queue.mMaxSize =
  ((queue.mFront + 1).toNat + queue.mSize) % queue.mMaxSize
 /-- The last element has a place in the array. -/
 last : 0 < queue.mSize → 0 ≤ queue.mBack

theorem minus_one_lt (place : ℕ) : (-1 : ℤ) < place := by omega

theorem new_sound {array : List T} (positive : 0 < array.length) : (new array).Sound where
 sized := rfl
 positive := positive
 fits := Nat.zero_le _
 front := Int.le_refl _
 back := ⟨Int.le_refl _, minus_one_lt _⟩
 apart := rfl
 last none := absurd none (Nat.lt_irrefl 0)

theorem Sound.clear (sound : queue.Sound) : queue.clear.Sound where
 sized := sound.sized
 positive := sound.positive
 fits := Nat.zero_le _
 front := Int.le_refl _
 back := ⟨Int.le_refl _, minus_one_lt _⟩
 apart := rfl
 last none := absurd none (Nat.lt_irrefl 0)

theorem Sound.contents_length (sound : queue.Sound) : queue.contents.length = queue.mSize :=
 window_length (sound.sized ▸ sound.positive)

theorem next_eq (low : -1 ≤ index) (capacity : ℕ) :
 (index + 1) % (capacity : ℤ) = (((index + 1).toNat % capacity : ℕ) : ℤ) := by
 obtain ⟨place, isPlace⟩ := Int.eq_ofNat_of_zero_le (show 0 ≤ index + 1 by omega)
 simp_all

theorem read_natCast (place : ℕ) : queue.read place = queue.mArray[place]? := by
 unfold read
 simp

theorem push_full (full : queue.mMaxSize ≤ queue.mSize) :
 queue.push item = some (false, queue) := if_pos full

theorem Sound.push (sound : queue.Sound) (item : T) (room : queue.mSize < queue.mMaxSize) :
 ∃ next, queue.push item = some (true, next) ∧ next.Sound ∧
  next.mMaxSize = queue.mMaxSize ∧ next.contents = queue.contents ++ [item] := by
 have inside : (queue.mBack + 1).toNat % queue.mMaxSize < queue.mMaxSize :=
  Nat.mod_lt _ sound.positive
 have writable : 0 ≤ (queue.mBack + 1) % (queue.mMaxSize : ℤ) ∧
  (queue.mBack + 1) % (queue.mMaxSize : ℤ) < queue.mArray.length := by
  rw [next_eq sound.back.1, sound.sized]
  exact ⟨Int.natCast_nonneg _, Int.ofNat_lt.mpr inside⟩
 have pushed : queue.push item = some (true, { queue with
  mArray := queue.mArray.set ((queue.mBack + 1) % (queue.mMaxSize : ℤ)).toNat item
  mBack := (queue.mBack + 1) % queue.mMaxSize
  mSize := queue.mSize + 1 }) := by
  unfold BlockQueue.push
  rw [if_neg (Nat.not_le.mpr room)]
  dsimp only
  unfold write
  rw [if_pos writable]
  rfl
 refine ⟨_, pushed, ?_, rfl, ?_⟩
 · rw [next_eq sound.back.1]
   refine
    { sized := (length_set ..).trans sound.sized
      positive := sound.positive
      fits := room
      front := sound.front
      back := ⟨Int.le_of_lt (minus_one_lt _), Int.ofNat_lt.mpr inside⟩
      apart := ?_
      last := fun _ => Int.natCast_nonneg _ }
   change ((queue.mBack + 1).toNat % queue.mMaxSize + 1) % queue.mMaxSize = _
   rw [sound.apart, Nat.mod_add_mod, Nat.add_assoc]
 · rw [next_eq sound.back.1, Int.toNat_natCast, sound.apart, ← sound.sized]
   exact window_push (sound.sized ▸ room)

theorem pop_empty (empty : queue.mSize = 0) : queue.pop = some (none, queue) := if_pos empty

section

variable (sound : queue.Sound)
include sound

theorem Sound.first (some_left : 0 < queue.mSize) :
 ∃ item, queue.read ((queue.mFront + 1) % queue.mMaxSize) = some item ∧
  queue.contents = item ::
   window queue.mArray ((queue.mFront + 1).toNat + 1) (queue.mSize - 1) := by
 have filled : 0 < queue.mArray.length := sound.sized ▸ sound.positive
 obtain ⟨item, here⟩ := exists_slot filled (queue.mFront + 1).toNat
 refine ⟨item, ?_, ?_⟩
 · rw [next_eq sound.front, read_natCast, ← sound.sized]
   exact here
 · unfold contents
   rw [← Nat.sub_add_cancel some_left]
   exact window_cons here

theorem Sound.pop (some_left : 0 < queue.mSize) :
 ∃ item rest next, queue.contents = item :: rest ∧ queue.pop = some (some item, next) ∧
  next.Sound ∧ next.mMaxSize = queue.mMaxSize ∧ next.contents = rest := by
 obtain ⟨item, here, whole⟩ := sound.first some_left
 have popped : queue.pop = some (some item, { queue with
  mFront := (queue.mFront + 1) % queue.mMaxSize, mSize := queue.mSize - 1 }) := by
  unfold BlockQueue.pop
  rw [if_neg (Nat.ne_of_gt some_left)]
  dsimp only
  rw [here]
  rfl
 refine ⟨item, _, _, whole, popped, ?_, rfl, ?_⟩
 · rw [next_eq sound.front]
   refine
    { sized := sound.sized
      positive := sound.positive
      fits := Nat.le_trans (Nat.sub_le _ _) sound.fits
      front := Int.le_of_lt (minus_one_lt _)
      back := sound.back
      apart := ?_
      last := fun _ => sound.last some_left }
   change _ = ((queue.mFront + 1).toNat % queue.mMaxSize + 1 + (queue.mSize - 1)) %
    queue.mMaxSize
   rw [sound.apart, Nat.add_assoc, Nat.add_sub_cancel' some_left, Nat.mod_add_mod]
 · refine window_of_mod ?_
   rw [next_eq sound.front, sound.sized]
   change ((queue.mFront + 1).toNat % queue.mMaxSize + 1) % queue.mMaxSize = _
   rw [Nat.mod_add_mod]

theorem Sound.back_eq (some_left : 0 < queue.mSize) :
 queue.back = some queue.contents.getLast? := by
 obtain ⟨place, isPlace⟩ := Int.eq_ofNat_of_zero_le (sound.last some_left)
 have filled : 0 < queue.mArray.length := sound.sized ▸ sound.positive
 obtain ⟨item, here⟩ := exists_slot filled ((queue.mFront + 1).toNat + (queue.mSize - 1))
 have inside : place < queue.mMaxSize := Int.ofNat_lt.mp (isPlace ▸ sound.back.2)
 have apart := sound.apart
 have atBack : ((queue.mFront + 1).toNat + (queue.mSize - 1)) % queue.mMaxSize = place := by
  rw [isPlace, ← Nat.sub_add_cancel some_left, ← Nat.add_assoc] at apart
  have same := Nat.ModEq.add_right_cancel' 1 (show Nat.ModEq _ _ _ from apart)
  rw [Nat.ModEq, Nat.mod_eq_of_lt inside] at same
  exact same.symm
 have last : queue.contents = window queue.mArray (queue.mFront + 1).toNat (queue.mSize - 1) ++
  [item] := by
  unfold contents
  rw [← Nat.sub_add_cancel some_left]
  exact window_concat here
 unfold BlockQueue.back
 rw [if_neg (Nat.ne_of_gt some_left), isPlace, last, List.getLast?_concat]
 rw [sound.sized, atBack] at here
 rw [read_natCast, here]
 rfl

/-- `front` reads the place before the first element, so that place has to hold its value. -/
def FrontReady (queue : BlockQueue T) : Prop :=
 queue.mSize = 0 ∨ ∃ item, queue.read queue.mFront = some item ∧
  queue.read ((queue.mFront + 1) % queue.mMaxSize) = some item

theorem Sound.front_iff : queue.front = some queue.contents.head? ↔ queue.FrontReady := by
 unfold BlockQueue.front FrontReady
 by_cases empty : queue.mSize = 0
 · have nothing : queue.contents = [] := by
    unfold contents
    rw [empty]
    rfl
   simp_all
 · obtain ⟨item, here, whole⟩ := sound.first (Nat.pos_of_ne_zero empty)
   rw [if_neg empty, whole, head?_cons, here, map_eq_some_iff, or_iff_right empty]
   constructor
   · simp
   · simp

end

/-! ### Calls -/

/-- A queue over the array does the work of a bounded list. -/
structure Represents (queue : BlockQueue T) (list : BoundedQueue T) : Prop where
 sound : queue.Sound
 capacity : list.capacity = queue.mMaxSize
 items : list.items = queue.contents

variable {list : BoundedQueue T}

section

variable (represents : Represents queue list)
include represents

theorem Represents.length : list.items.length = queue.mSize := by
 rw [represents.items, represents.sound.contents_length]

theorem Represents.nonempty {rest : List T} (some_left : queue.contents = item :: rest) :
 0 < queue.mSize := by
 rw [← represents.sound.contents_length, some_left]
 exact Nat.succ_pos _

theorem Represents.call {call : QueueCall T} (other : call ≠ .front) :
 ∃ next, queue.call call = some ((list.call call).1, next) ∧
  Represents next (list.call call).2 := by
 have sound := represents.sound
 have length := represents.length
 have items := represents.items
 have capacity := represents.capacity
 cases call with
 | push item =>
  by_cases room : queue.mSize < queue.mMaxSize
  · obtain ⟨next, pushed, nextSound, sameMax, contents⟩ := sound.push item room
    refine ⟨next, ?_, ?_⟩
    · simp only [BlockQueue.call, pushed, BoundedQueue.call, BoundedQueue.push, length,
       capacity, room, dite_true, map_some]
    · simp only [BoundedQueue.call, BoundedQueue.push, length, capacity, room, dite_true]
      exact ⟨nextSound, sameMax.symm, (congrArg (· ++ [item]) items).trans contents.symm⟩
  · refine ⟨queue, ?_, ?_⟩
    · simp only [BlockQueue.call, push_full (Nat.not_lt.mp room), BoundedQueue.call,
       BoundedQueue.push, length, capacity, room, dite_false, map_some]
    · simp only [BoundedQueue.call, BoundedQueue.push, length, capacity, room, dite_false]
      exact represents
 | pop =>
  cases whole : queue.contents with
  | nil =>
   have empty : queue.mSize = 0 := by rw [← sound.contents_length, whole]; rfl
   refine ⟨queue, ?_, sound, capacity, ?_⟩
   · simp only [BlockQueue.call, pop_empty empty, BoundedQueue.call, items, whole,
      List.head?_nil, map_some]
   · simp only [BoundedQueue.call, BoundedQueue.drop, items, whole, List.tail_nil]
  | cons first rest =>
   obtain ⟨item, others, next, split, popped, nextSound, sameMax, contents⟩ :=
    sound.pop (represents.nonempty whole)
   cases whole.symm.trans split
   refine ⟨next, ?_, nextSound, capacity.trans sameMax.symm, ?_⟩
   · simp only [BlockQueue.call, popped, BoundedQueue.call, items, whole,
      List.head?_cons, map_some]
   · simp only [BoundedQueue.call, BoundedQueue.drop, items, whole, List.tail_cons,
      contents]
 | front => exact absurd rfl other
 | back =>
  refine ⟨queue, ?_, represents⟩
  cases Nat.eq_zero_or_pos queue.mSize with
  | inl empty =>
   have nothing : queue.contents = [] :=
    List.length_eq_zero_iff.mp (sound.contents_length.trans empty)
   simp only [BlockQueue.call, back, empty, if_true, BoundedQueue.call, items, nothing,
    List.getLast?_nil, map_some]
  | inr some_left =>
   simp only [BlockQueue.call, sound.back_eq some_left, BoundedQueue.call, items,
    map_some]
 | clear => exact ⟨_, rfl, sound.clear, capacity, rfl⟩
 | full =>
  refine ⟨queue, ?_, represents⟩
  have same : (queue.mMaxSize ≤ queue.mSize) ↔ queue.mSize = queue.mMaxSize :=
   ⟨fun full => Nat.le_antisymm sound.fits full, fun full => Nat.le_of_eq full.symm⟩
  simp only [BlockQueue.call, BlockQueue.full, BoundedQueue.call, length, capacity, same]
 | empty =>
  refine ⟨queue, ?_, represents⟩
  have same : list.items.isEmpty = decide (queue.mSize = 0) := by
   rw [← length, Bool.eq_iff_iff, List.isEmpty_iff, decide_eq_true_eq,
    List.length_eq_zero_iff]
  simp only [BlockQueue.call, BlockQueue.empty, BoundedQueue.call, same]
 | size =>
  refine ⟨queue, ?_, represents⟩
  simp only [BlockQueue.call, BlockQueue.size, BoundedQueue.call, length]

/-- `front` is called only where the place that it reads holds the first element. -/
def Meets (queue : BlockQueue T) : List (QueueCall T) → Prop
 | [] => True
 | call :: rest => (call = .front → queue.FrontReady) ∧
  ∀ answer next, queue.call call = some (answer, next) → Meets next rest

theorem Represents.answers_iff (calls : List (QueueCall T)) :
 queue.answers calls = some (list.answers calls) ↔ queue.Meets calls := by
 induction calls generalizing queue list with
 | nil => exact iff_of_true rfl trivial
 | cons call rest ih =>
  unfold BlockQueue.answers BoundedQueue.answers Meets
  by_cases isFront : call = .front
  · subst isFront
    have front := represents.sound.front_iff
    simp only [true_imp_iff]
    rw [← front]
    simp only [BlockQueue.call, BoundedQueue.call, represents.items]
    constructor
    · intro same
      obtain ⟨⟨answer, next⟩, found, later⟩ := bind_eq_some_iff.mp same
      obtain ⟨value, read, isAnswer⟩ := map_eq_some_iff.mp found
      cases isAnswer
      simp_all
    · rintro ⟨read, later⟩
      have whole := (ih represents).mpr (later _ queue (by rw [read]; rfl))
      simp_all
  · obtain ⟨next, called, nextRepresents⟩ := represents.call isFront
    have none : call = .front → queue.FrontReady := fun same => absurd same isFront
    rw [called, bind_some, and_iff_right none, map_eq_some_iff]
    constructor
    · simp_all
    · simp_all

end

/-- The calls on a new queue are answered as by a list of its capacity, inside the array, if and
only if every `front` finds the first element where it reads. -/
theorem answers_eq_iff (array : List T) (positive : 0 < array.length)
 (calls : List (QueueCall T)) :
 (new array).answers calls = some ((BoundedQueue.new array.length).answers calls) ↔
  (new array).Meets calls := by
 have start : Represents (new array) (BoundedQueue.new array.length) :=
  ⟨new_sound positive, rfl, rfl⟩
 exact start.answers_iff calls

theorem answers_eq_one : (new [0]).answers [.push 7, .pop, .push 8, .front] =
 some ((BoundedQueue.new 1).answers [.push 7, .pop, .push 8, .front]) := by
 refine (answers_eq_iff [0] Nat.one_pos _).mpr ?_
 refine ⟨nofun, ?_⟩
 rintro _ _ ⟨⟩
 refine ⟨nofun, ?_⟩
 rintro _ _ ⟨⟩
 refine ⟨nofun, ?_⟩
 rintro _ _ ⟨⟩
 exact ⟨fun _ => .inr ⟨8, rfl, rfl⟩, fun _ _ _ => trivial⟩

/-- Before the first `pop` the place that `front` reads is -1; later it holds the element that
was popped last. -/
theorem front_misreads :
 (new [0, 0]).answers [.push 1, .front] ≠
  some ((BoundedQueue.new 2).answers [.push 1, .front]) ∧
 (new [0, 0]).answers [.push 1, .push 2, .pop, .front] ≠
  some ((BoundedQueue.new 2).answers [.push 1, .push 2, .pop, .front]) := by
 decide

end BlockQueue

end MyNotes.Network
