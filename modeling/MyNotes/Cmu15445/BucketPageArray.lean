/-
The loops of a bucket page over `array_`, and its two ways of deleting an entry.
-/

import MyNotes.Cmu15445.ExtendibleHTablePages

namespace MyNotes.Cmu15445

open Function List ExtendibleHTableBucketPage

variable {K V : Type} [DecidableEq K]

/-- What is stored at and past the end of the array is arbitrary.  `touched` holds the indices
that were read or written. -/
structure BucketPageArray (K V : Type) where
 maxSize : ℕ
 size : ℕ
 array : ℕ → K × V
 touched : List ℕ

inductive BucketOp (K V : Type) where
 | lookup (key : K)
 | insert (key : K) (value : V)
 | remove (key : K)
 | removeAt (bucketIdx : ℕ)

inductive BucketReply (V : Type) where
 | value (value : Option V)
 | done (ok : Bool)
 | void

namespace ExtendibleHTableBucketPage

/-- An operation on the page as an insertion-ordered finite map of bounded size. -/
def step (self : ExtendibleHTableBucketPage K V) :
 BucketOp K V → BucketReply V × ExtendibleHTableBucketPage K V
 | .lookup key => (.value (self.lookup key), self)
 | .insert key value => (.done (self.insert key value).2, (self.insert key value).1)
 | .remove key => (.done (self.remove key).2, (self.remove key).1)
 | .removeAt bucketIdx => (.void, { self with array := self.array.eraseIdx bucketIdx })

def run : ExtendibleHTableBucketPage K V → List (BucketOp K V) →
 List (BucketReply V) × ExtendibleHTableBucketPage K V
 | self, [] => ([], self)
 | self, op :: ops =>
  ((self.step op).1 :: ((self.step op).2.run ops).1, ((self.step op).2.run ops).2)

theorem Distinct.step {self : ExtendibleHTableBucketPage K V} (distinct : self.Distinct)
 (op : BucketOp K V) : (self.step op).2.Distinct := by
 cases op with
 | lookup key => exact distinct
 | insert key value =>
  change (self.insert key value).1.Distinct
  unfold insert
  rw [any_eq_lookup]
  cases found : self.lookup key with
  | some value => split <;> exact distinct
  | none =>
   split
   · exact distinct
   · exact distinct_append distinct found value
 | remove key =>
  change (self.remove key).1.Distinct
  cases found : self.lookup key with
  | some value =>
   rw [remove_present found]
   exact distinct_eraseP distinct key
  | none =>
   rw [remove_absent found]
   exact distinct
 | removeAt bucketIdx =>
  exact List.Nodup.sublist ((eraseIdx_sublist self.array bucketIdx).map Prod.fst) distinct

end ExtendibleHTableBucketPage

namespace BucketPageArray

def init (maxSize : ℕ) (array : ℕ → K × V) : BucketPageArray K V := ⟨maxSize, 0, array, []⟩

/-- `array_[i] = array_[i + 1]`. -/
def move (i : ℕ) (self : BucketPageArray K V) : BucketPageArray K V :=
 { self with
  array := update self.array i (self.array (i + 1))
  touched := i :: (i + 1) :: self.touched }

def shift : ℕ → ℕ → BucketPageArray K V → BucketPageArray K V
 | 0, _, self => self
 | left + 1, i, self => shift left (i + 1) (self.move i)

def search (key : K) : ℕ → ℕ → BucketPageArray K V → Option ℕ × BucketPageArray K V
 | 0, _, self => (none, self)
 | left + 1, i, self =>
  let self := { self with touched := i :: self.touched }
  if (self.array i).1 = key then (some i, self) else search key left (i + 1) self

def lookup (key : K) (self : BucketPageArray K V) : Option V × BucketPageArray K V :=
 match search key self.size 0 self with
 | (some i, self) => (some (self.array i).2, { self with touched := i :: self.touched })
 | (none, self) => (none, self)

def insert (key : K) (value : V) (self : BucketPageArray K V) : Bool × BucketPageArray K V :=
 if self.size = self.maxSize then (false, self)
 else match search key self.size 0 self with
  | (some _, self) => (false, self)
  | (none, self) => (true, { self with
   array := update self.array self.size (key, value)
   size := self.size + 1
   touched := self.size :: self.touched })

def remove (key : K) (self : BucketPageArray K V) : Bool × BucketPageArray K V :=
 if self.size = 0 then (false, self)
 else match search key self.size 0 self with
  | (some i, self) =>
   let self := shift (self.size - (i + 1)) i self
   (true, { self with size := self.size - 1 })
  | (none, self) => (false, self)

/-- The loop runs while `i <= size_`. -/
def removeAt (bucketIdx : ℕ) (self : BucketPageArray K V) : BucketPageArray K V :=
 let self := shift (self.size + 1 - bucketIdx) bucketIdx self
 { self with size := self.size - 1 }

def step (self : BucketPageArray K V) : BucketOp K V → BucketReply V × BucketPageArray K V
 | .lookup key => (.value (self.lookup key).1, (self.lookup key).2)
 | .insert key value => (.done (self.insert key value).1, (self.insert key value).2)
 | .remove key => (.done (self.remove key).1, (self.remove key).2)
 | .removeAt bucketIdx => (.void, self.removeAt bucketIdx)

def run : BucketPageArray K V → List (BucketOp K V) → List (BucketReply V) × BucketPageArray K V
 | self, [] => ([], self)
 | self, op :: ops =>
  ((self.step op).1 :: ((self.step op).2.run ops).1, ((self.step op).2.run ops).2)

/-- Each operation of the run starts in a state that is fit for it. -/
def Along (fit : BucketPageArray K V → BucketOp K V → Prop) :
 BucketPageArray K V → List (BucketOp K V) → Prop
 | _, [] => True
 | self, op :: ops => fit self op ∧ Along fit (self.step op).2 ops

section

variable (self : BucketPageArray K V)

/-- `RemoveAt` is called with the index of an entry. -/
def Admissible : BucketOp K V → Prop
 | .removeAt bucketIdx => bucketIdx < self.size
 | _ => True

/-- `RemoveAt` is called while two more entries would fit. -/
def Roomy : BucketOp K V → Prop
 | .removeAt _ => self.size + 2 ≤ self.maxSize
 | _ => True

def InBounds : Prop := ∀ i ∈ self.touched, i < self.maxSize

/-- The page that the entries of the array make up. -/
def page : ExtendibleHTableBucketPage K V :=
 ⟨self.maxSize, (List.range self.size).map self.array⟩

end

variable {self : BucketPageArray K V} {key : K} {value : V}

theorem search_eq (key : K) (left i : ℕ) (self : BucketPageArray K V) :
 ∃ indices, (∀ k ∈ indices, k < i + left) ∧ search key left i self =
  ((range' i left).find? fun k => (self.array k).1 = key,
   { self with touched := indices ++ self.touched }) := by
 induction left generalizing i self with
 | zero => exact ⟨[], by simp, rfl⟩
 | succ left ih =>
  rw [search, range'_succ]
  by_cases own : (self.array i).1 = key
  · exact ⟨[i], by simp, by rw [if_pos own, find?_cons_of_pos (by simpa using own)]; rfl⟩
  · obtain ⟨indices, below, found⟩ := ih (i + 1) { self with touched := i :: self.touched }
    refine ⟨indices ++ [i], ?_, ?_⟩
    · intro k member
      rcases mem_append.mp member with member | member
      · have := below k member
        omega
      · rw [mem_singleton.mp member]
        omega
    · rw [if_neg own, found, find?_cons_of_neg (by simpa using own), append_assoc]
      rfl

section

omit [DecidableEq K]

theorem shift_eq (left i : ℕ) (self : BucketPageArray K V) :
 ∃ indices, (∀ k, k ∈ indices ↔ 0 < left ∧ i ≤ k ∧ k ≤ i + left) ∧ shift left i self =
  { self with
   array := fun k => if i ≤ k ∧ k < i + left then self.array (k + 1) else self.array k
   touched := indices ++ self.touched } := by
 induction left generalizing i self with
 | zero =>
  refine ⟨[], by simp, ?_⟩
  have none : ∀ k, ¬(i ≤ k ∧ k < i + 0) := by omega
  simp only [none, if_false]
  rfl
 | succ left ih =>
  obtain ⟨indices, range, moved⟩ := ih (i + 1) (self.move i)
  refine ⟨indices ++ [i, i + 1], ?_, ?_⟩
  · intro k
    rw [mem_append, range]
    simp only [mem_cons, not_mem_nil, or_false]
    omega
  · rw [shift, moved]
    unfold move
    rw [append_assoc]
    congr 1
    funext k
    dsimp only
    by_cases own : k = i
    · subst own
      rw [if_neg (by omega), if_pos (by omega), update_self]
    · by_cases later : i + 1 ≤ k ∧ k < i + 1 + left
      · rw [if_pos later, if_pos (by omega), update_of_ne (by omega)]
      · rw [if_neg later, if_neg (by omega), update_of_ne own]

theorem map_shift {array : ℕ → K × V} {size left i : ℕ} (inside : i < size)
 (enough : size ≤ i + left + 1) :
 (range (size - 1)).map (fun k =>
  if i ≤ k ∧ k < i + left then array (k + 1) else array k) =
  ((range size).map array).eraseIdx i := by
 apply ext_getElem
 · rw [length_eraseIdx_of_lt (by simpa using inside)]
   simp
 · intro k below _
   have bound : k < size - 1 := by simpa using below
   rw [getElem_eraseIdx, getElem_map, getElem_range]
   by_cases early : k < i
   · rw [dif_pos early, if_neg (by omega), getElem_map, getElem_range]
   · rw [dif_neg early, if_pos (by omega), getElem_map, getElem_range]

theorem find_range_map (p : K × V → Bool) (array : ℕ → K × V) (size : ℕ) :
 ((range size).map array).find? p =
  ((range' 0 size).find? fun k => p (array k)).map array := by
 rw [find?_map, range_eq_range']
 rfl

theorem eraseP_range_map (p : K × V → Bool) (array : ℕ → K × V) {size i : ℕ}
 (found : (range' 0 size).find? (fun k => p (array k)) = some i) :
 i < size ∧ ((range size).map array).eraseP p =
  ((range size).map array).eraseIdx i := by
 rw [← range_eq_range', find?_range_eq_some] at found
 obtain ⟨own, member, others⟩ := found
 have below := mem_range.mp member
 refine ⟨below, ?_⟩
 have first : ((range size).map array).findIdx? p = some i := by
  rw [findIdx?_eq_some_iff_getElem]
  exact ⟨by simpa using below, by simpa using own, fun j early => by simpa using others j early⟩
 rw [eraseP_eq_eraseIdx, first]

end

/-- What an operation leaves behind, when a run may go on from there. -/
structure Refines (start : BucketPageArray K V) (op : BucketOp K V) : Prop where
 reply : (start.step op).1 = (start.page.step op).1
 page : (start.step op).2.page = (start.page.step op).2
 maxSize : (start.step op).2.maxSize = start.maxSize
 size : (start.step op).2.size ≤ start.maxSize
 inBounds : (start.step op).2.InBounds ↔ start.InBounds ∧ start.Roomy op

theorem lookup_page (self : BucketPageArray K V) (key : K) : self.page.lookup key =
 ((range' 0 self.size).find? fun k => (self.array k).1 = key).map
  fun i => (self.array i).2 := by
 unfold ExtendibleHTableBucketPage.lookup page
 rw [find_range_map, Option.map_map]
 rfl

/-- An operation that only reads. -/
theorem Refines.of_read {op : BucketOp K V} {reply : BucketReply V} (indices : List ℕ)
 (fits : self.size ≤ self.maxSize) (early : ∀ k ∈ indices, k < self.maxSize)
 (roomy : self.Roomy op)
 (run : self.step op = (reply, { self with touched := indices ++ self.touched }))
 (same : self.page.step op = (reply, self.page)) : Refines self op := by
 refine ⟨?_, ?_, ?_, ?_, ?_⟩ <;> rw [run]
 · rw [same]
 · rw [same]
   rfl
 · exact fits
 · simp only [InBounds, forall_mem_append]
   exact ⟨fun both => ⟨both.2, roomy⟩, fun both => ⟨early, both.1⟩⟩

section

variable (fits : self.size ≤ self.maxSize)
include fits

theorem search_page (key : K) : ∃ indices hit, (∀ k ∈ indices, k < self.maxSize) ∧
 search key self.size 0 self = (hit, { self with touched := indices ++ self.touched }) ∧
 (range' 0 self.size).find? (fun k => (self.array k).1 = key) = hit ∧
 self.page.lookup key = hit.map fun i => (self.array i).2 := by
 obtain ⟨indices, below, searched⟩ := search_eq key self.size 0 self
 refine ⟨indices, _, fun k member => ?_, searched, rfl, lookup_page self key⟩
 have := below k member
 omega

theorem refines_lookup : Refines self (.lookup key) := by
 obtain ⟨indices, hit, early, searched, found, looked⟩ := search_page fits key
 cases hit with
 | none =>
  refine .of_read indices fits early trivial (by rw [step, lookup, searched]) ?_
  rw [ExtendibleHTableBucketPage.step, looked]
  rfl
 | some i =>
  have bound : i < self.size := by simpa using mem_of_find?_eq_some found
  refine .of_read (i :: indices) fits ?_ trivial (by rw [step, lookup, searched]; rfl) ?_
  · exact forall_mem_cons.mpr ⟨by omega, early⟩
  · rw [ExtendibleHTableBucketPage.step, looked]
    rfl

theorem refines_insert : Refines self (.insert key value) := by
 have isFull : self.page.isFull = decide (self.size = self.maxSize) := by
  unfold isFull page
  rw [length_map, length_range]
  rfl
 by_cases full : self.size = self.maxSize
 · have same : self.page.insert key value = (self.page, false) := by
    rw [ExtendibleHTableBucketPage.insert, isFull, if_pos (decide_eq_true full)]
   exact .of_read [] fits (by simp) trivial (by rw [step, insert, if_pos full]; rfl)
    (by rw [ExtendibleHTableBucketPage.step, same])
 · obtain ⟨indices, hit, early, searched, -, looked⟩ := search_page fits key
   cases hit with
   | none =>
    have run : self.step (.insert key value) = (.done true, { self with
     array := update self.array self.size (key, value)
     size := self.size + 1
     touched := self.size :: indices ++ self.touched }) := by
     rw [step, insert, if_neg full, searched]
     rfl
    have added := insert_new looked
     (isFull.trans (decide_eq_false full)) value
    refine ⟨?_, ?_, ?_, ?_, ?_⟩ <;> rw [run]
    · rw [ExtendibleHTableBucketPage.step, added]
    · rw [ExtendibleHTableBucketPage.step, added]
      unfold page
      dsimp only
      rw [range_succ, map_append, map_singleton, update_self]
      congr 2
      exact map_congr_left fun k member =>
       update_of_ne (mem_range.mp member).ne _ _
    · exact Nat.lt_of_le_of_ne fits full
    · simp only [InBounds, forall_mem_append, forall_mem_cons]
      exact ⟨fun both => ⟨both.2, trivial⟩, fun both => ⟨⟨by omega, early⟩, both.1⟩⟩
   | some i =>
    have same : self.page.insert key value = (self.page, false) := by
     rw [ExtendibleHTableBucketPage.insert, ExtendibleHTableBucketPage.any_eq_lookup, looked]
     split <;> rfl
    exact .of_read indices fits early trivial (by rw [step, insert, if_neg full, searched])
     (by rw [ExtendibleHTableBucketPage.step, same])

theorem refines_remove : Refines self (.remove key) := by
 obtain ⟨indices, hit, early, searched, found, looked⟩ := search_page fits key
 cases hit with
 | none =>
  have same := remove_absent looked
  by_cases empty : self.size = 0
  · exact .of_read [] fits (by simp) trivial (by rw [step, remove, if_pos empty]; rfl)
     (by rw [ExtendibleHTableBucketPage.step, same])
  · exact .of_read indices fits early trivial (by rw [step, remove, if_neg empty, searched])
     (by rw [ExtendibleHTableBucketPage.step, same])
 | some i =>
  obtain ⟨bound, erased⟩ :=
   eraseP_range_map (fun entry => entry.1 = key) self.array found
  obtain ⟨moved, range, shifted⟩ := shift_eq (self.size - (i + 1)) i
   { self with touched := indices ++ self.touched }
  have run : self.step (.remove key) = (.done true, { self with
   array := fun k => if i ≤ k ∧ k < i + (self.size - (i + 1)) then self.array (k + 1)
    else self.array k
   size := self.size - 1
   touched := moved ++ (indices ++ self.touched) }) := by
   rw [step, remove, if_neg (by omega), searched]
   dsimp only
   rw [shifted]
  have gone := remove_present looked
  refine ⟨?_, ?_, ?_, ?_, ?_⟩ <;> rw [run]
  · rw [ExtendibleHTableBucketPage.step, gone]
  · rw [ExtendibleHTableBucketPage.step, gone]
    unfold page
    rw [map_shift bound (by omega), erased]
  · change self.size - 1 ≤ self.maxSize
    omega
  · simp only [InBounds, forall_mem_append]
    refine ⟨fun both => ⟨both.2.2, trivial⟩, fun both => ⟨fun k member => ?_, early, both.1⟩⟩
    have := (range k).mp member
    omega

theorem refines_removeAt {bucketIdx : ℕ} (inside : bucketIdx < self.size) :
 Refines self (.removeAt bucketIdx) := by
 obtain ⟨moved, range, shifted⟩ := shift_eq (self.size + 1 - bucketIdx) bucketIdx self
 refine ⟨rfl, ?_, ?_, ?_, ?_⟩ <;> rw [step, removeAt, shifted]
 · unfold page ExtendibleHTableBucketPage.step
   rw [map_shift inside (by omega)]
 · change self.size - 1 ≤ self.maxSize
   omega
 · simp only [InBounds, forall_mem_append]
   constructor
   · intro ⟨new, old⟩
     -- The last turn of the loop reads the element after the next free one.
     have last := new (self.size + 1) ((range _).mpr (by omega))
     exact ⟨old, last⟩
   · intro ⟨old, room⟩
     refine ⟨fun k member => ?_, old⟩
     have := (range k).mp member
     have : self.size + 2 ≤ self.maxSize := room
     omega

theorem refines {op : BucketOp K V} (admissible : self.Admissible op) : Refines self op := by
 cases op with
 | lookup key => exact refines_lookup fits
 | insert key value => exact refines_insert fits
 | remove key => exact refines_remove fits
 | removeAt bucketIdx => exact refines_removeAt fits admissible

theorem refines_run {ops : List (BucketOp K V)} (distinct : self.page.Distinct)
 (admissible : Along Admissible self ops) :
 (self.run ops).1 = (self.page.run ops).1 ∧
  (self.run ops).2.page = (self.page.run ops).2 ∧ (self.run ops).2.page.Distinct ∧
  (self.run ops).2.size ≤ self.maxSize ∧
  ((self.run ops).2.InBounds ↔ self.InBounds ∧ Along Roomy self ops) := by
 induction ops generalizing self with
 | nil => exact ⟨rfl, rfl, distinct, fits, (and_iff_left trivial).symm⟩
 | cons op ops ih =>
  obtain ⟨now, later⟩ := admissible
  have first := refines fits now
  have kept := distinct.step op
  rw [← first.page] at kept
  obtain ⟨replies, page, apart, size, bounds⟩ :=
   ih (first.maxSize ▸ first.size) kept later
  rw [first.page] at replies page
  refine ⟨?_, page, apart, first.maxSize ▸ size, ?_⟩
  · change _ :: _ = _ :: _
    rw [replies, first.reply]
  · exact bounds.trans ((and_congr_left' first.inBounds).trans and_assoc)

end

theorem run_inBounds_iff (maxSize : ℕ) (array : ℕ → K × V) {ops : List (BucketOp K V)}
 (admissible : Along Admissible (init maxSize array) ops) :
 ((init maxSize array).run ops).1 = ((ExtendibleHTableBucketPage.init maxSize).run ops).1 ∧
  ((init maxSize array).run ops).2.page =
   ((ExtendibleHTableBucketPage.init maxSize).run ops).2 ∧
  ((init maxSize array).run ops).2.page.Distinct ∧
  ((init maxSize array).run ops).2.size ≤ maxSize ∧
  (((init maxSize array).run ops).2.InBounds ↔ Along Roomy (init maxSize array) ops) := by
 have start : (init maxSize array).InBounds := fun _ member => by cases member
 have distinct : (init maxSize array).page.Distinct := nodup_nil
 obtain ⟨replies, page, distinct, size, bounds⟩ :=
  refines_run (Nat.zero_le maxSize) distinct admissible
 exact ⟨replies, page, distinct, size, bounds.trans (and_iff_right start)⟩

theorem run_inBounds_iff_two : Along Roomy (init 3 fun _ => (0, 0))
 [.insert 1 5, .insert 1 6, .removeAt 0, .lookup 1] ∧
 ((init 3 fun _ => (0, 0)).run
  [.insert 1 5, .insert 1 6, .removeAt 0, .lookup 1]).2.InBounds := by
 have admissible : Along Admissible (init 3 fun _ => (0, 0))
  [.insert 1 5, .insert 1 6, .removeAt 0, .lookup 1] :=
  ⟨trivial, trivial, (by decide : 0 < 1), trivial, trivial⟩
 have roomy : Along Roomy (init 3 fun _ => (0, 0))
  [.insert 1 5, .insert 1 6, .removeAt 0, .lookup 1] :=
  ⟨trivial, trivial, (by decide : 1 + 2 ≤ 3), trivial, trivial⟩
 exact ⟨roomy, (run_inBounds_iff 3 (fun _ => (0, 0)) admissible).2.2.2.2.mpr roomy⟩

theorem not_run_inBounds : ¬ ∀ (maxSize : ℕ) (array : ℕ → ℕ × ℕ) (ops : List (BucketOp ℕ ℕ)),
 Along Admissible (init maxSize array) ops → ((init maxSize array).run ops).2.InBounds := by
 intro bounds
 have last := bounds 1 (fun _ => (0, 0)) [.insert 1 5, .removeAt 0]
  ⟨trivial, (by decide : 0 < 1), trivial⟩ 2 (by decide)
 exact absurd last (by decide)

end BucketPageArray

end MyNotes.Cmu15445
