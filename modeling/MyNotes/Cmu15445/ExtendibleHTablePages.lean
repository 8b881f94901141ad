/-
The header, directory and bucket pages of the disk extendible hash table.

An array of a page is a function of its index, and a bucket's array is the list of
its first `size_` entries.  An access to a directory slot outside `[0, Size())` is a
fault, whether the accessor checks its index or not.
-/

import MyNotes.Library.ExtendibleDirectory
import MyNotes.Cmu15445.BufferPool

namespace MyNotes.Cmu15445

open Library.ExtendibleDirectory Function List Nat

inductive Fault where
 | outOfRange (index : ℕ)
 | outOfFuel
 deriving DecidableEq

/-! ### The header page -/

structure ExtendibleHTableHeaderPage where
 maxDepth : ℕ
 directoryPageIds : ℕ → PageId

namespace ExtendibleHTableHeaderPage

def init (maxDepth : ℕ) : ExtendibleHTableHeaderPage := ⟨maxDepth, fun _ => invalidPageId⟩

section

variable (self : ExtendibleHTableHeaderPage)

def maxSize : ℕ := 1 <<< self.maxDepth

/-- The highest `max_depth_` bits of the hash. -/
def hashToDirectoryIndex (hash : UInt32) : ℕ :=
 if self.maxDepth = 0 then 0 else hash.toNat >>> (32 - self.maxDepth)

def getDirectoryPageId (directoryIdx : ℕ) : PageId :=
 if directoryIdx ≥ self.maxSize then invalidPageId else self.directoryPageIds directoryIdx

def setDirectoryPageId (directoryIdx : ℕ)
 (directoryPageId : PageId) : Except Fault ExtendibleHTableHeaderPage :=
 if directoryIdx ≥ self.maxSize then .error (.outOfRange directoryIdx)
 else .ok { self with
  directoryPageIds := update self.directoryPageIds directoryIdx directoryPageId }

theorem hashToDirectoryIndex_lt (hash : UInt32) :
 self.hashToDirectoryIndex hash < self.maxSize := by
 unfold hashToDirectoryIndex maxSize
 rw [Nat.one_shiftLeft]
 by_cases zero : self.maxDepth = 0
 · rw [if_pos zero]
   exact Nat.two_pow_pos _
 · rw [if_neg zero, Nat.shiftRight_eq_div_pow, Nat.div_lt_iff_lt_mul (Nat.two_pow_pos _),
    ← pow_add]
   calc hash.toNat < 2 ^ 32 := hash.toNat_lt
    _ ≤ 2 ^ (self.maxDepth + (32 - self.maxDepth)) :=
     Nat.pow_le_pow_right (by omega) (by omega)

end

end ExtendibleHTableHeaderPage

/-! ### The directory page -/

structure ExtendibleHTableDirectoryPage where
 maxDepth : ℕ
 globalDepth : ℕ
 localDepths : ℕ → ℕ
 bucketPageIds : ℕ → PageId

namespace ExtendibleHTableDirectoryPage

def init (maxDepth : ℕ) : ExtendibleHTableDirectoryPage :=
 { maxDepth := maxDepth
   globalDepth := 0
   localDepths := fun _ => 0
   bucketPageIds := fun _ => invalidPageId }

section

variable (self : ExtendibleHTableDirectoryPage)

def size : ℕ := 1 <<< self.globalDepth

def getGlobalDepthMask : ℕ := (1 <<< self.globalDepth) - 1

def hashToBucketIndex (hash : UInt32) : ℕ :=
 hash.toNat &&& self.getGlobalDepthMask

/-- An index that is not one of the `Size()` slots is a fault. -/
def checkIndex (bucketIdx : ℕ) : Except Fault Unit :=
 if bucketIdx ≥ self.size then .error (.outOfRange bucketIdx) else .ok ()

def getBucketPageId (bucketIdx : ℕ) : Except Fault PageId := do
 self.checkIndex bucketIdx
 return self.bucketPageIds bucketIdx

def setBucketPageId (bucketIdx : ℕ)
 (bucketPageId : PageId) : Except Fault ExtendibleHTableDirectoryPage := do
 self.checkIndex bucketIdx
 return { self with bucketPageIds := update self.bucketPageIds bucketIdx bucketPageId }

def getSplitImageIndex (bucketIdx : ℕ) : ℕ :=
 bucketIdx + (1 <<< (self.globalDepth - 1))

def getLocalDepthMask (bucketIdx : ℕ) : Except Fault ℕ := do
 self.checkIndex bucketIdx
 return (1 <<< self.localDepths bucketIdx) - 1

def getLocalDepth (bucketIdx : ℕ) : Except Fault ℕ := do
 self.checkIndex bucketIdx
 return self.localDepths bucketIdx

def setLocalDepth (bucketIdx localDepth : ℕ) : Except Fault ExtendibleHTableDirectoryPage := do
 self.checkIndex bucketIdx
 return { self with localDepths := update self.localDepths bucketIdx localDepth }

def decrLocalDepth (bucketIdx : ℕ) : Except Fault ExtendibleHTableDirectoryPage := do
 self.checkIndex bucketIdx
 return if self.localDepths bucketIdx > 0 then
  { self with
   localDepths :=
    update self.localDepths bucketIdx (self.localDepths bucketIdx - 1) }
  else self

/-- One turn of the loop of `IncrGlobalDepth`. -/
def copySlot (i : ℕ) : ExtendibleHTableDirectoryPage :=
 { self with
  localDepths :=
   update self.localDepths (i + (1 <<< self.globalDepth)) (self.localDepths i)
  bucketPageIds :=
   update self.bucketPageIds (i + (1 <<< self.globalDepth)) (self.bucketPageIds i) }

def incrGlobalDepth : ExtendibleHTableDirectoryPage :=
 { (List.range self.size).foldl copySlot self with globalDepth := self.globalDepth + 1 }

def decrGlobalDepth : ExtendibleHTableDirectoryPage :=
 if self.globalDepth = 0 then self else { self with globalDepth := self.globalDepth - 1 }

def canShrink : Bool :=
 if self.globalDepth = 0 then false
 else (List.range self.size).all fun i => self.localDepths i != self.globalDepth

end

/-! ### The directory as a directory -/

def view (self : ExtendibleHTableDirectoryPage) : Directory PageId :=
 { depth := self.globalDepth
   localDepth := self.localDepths
   page := self.bucketPageIds }

section

variable (self : ExtendibleHTableDirectoryPage)

theorem size_eq : self.size = 2 ^ self.globalDepth :=
 one_shiftLeft _

theorem hashToBucketIndex_eq (hash : UInt32) :
 self.hashToBucketIndex hash = hash.toNat % 2 ^ self.globalDepth := by
 unfold hashToBucketIndex getGlobalDepthMask
 rw [one_shiftLeft, and_two_pow_sub_one_eq_mod]

theorem hashToBucketIndex_lt (hash : UInt32) :
 self.hashToBucketIndex hash < 2 ^ self.globalDepth := by
 rw [hashToBucketIndex_eq]
 exact Nat.mod_lt _ (Nat.two_pow_pos _)

end

variable {self : ExtendibleHTableDirectoryPage} {bucketIdx : ℕ}

section

variable (bound : bucketIdx < 2 ^ self.globalDepth)
include bound

theorem checkIndex_ok : self.checkIndex bucketIdx = .ok () := by
 unfold checkIndex
 rw [size_eq, if_neg (by omega)]

theorem getBucketPageId_ok :
 self.getBucketPageId bucketIdx = .ok (self.bucketPageIds bucketIdx) := by
 unfold getBucketPageId
 rw [checkIndex_ok bound]
 rfl

theorem setBucketPageId_ok (bucketPageId : PageId) :
 self.setBucketPageId bucketIdx bucketPageId = .ok { self with
  bucketPageIds := update self.bucketPageIds bucketIdx bucketPageId } := by
 unfold setBucketPageId
 rw [checkIndex_ok bound]
 rfl

theorem getLocalDepthMask_ok :
 self.getLocalDepthMask bucketIdx = .ok (2 ^ self.localDepths bucketIdx - 1) := by
 unfold getLocalDepthMask
 rw [checkIndex_ok bound, one_shiftLeft]
 rfl

theorem getLocalDepth_ok : self.getLocalDepth bucketIdx = .ok (self.localDepths bucketIdx) := by
 unfold getLocalDepth
 rw [checkIndex_ok bound]
 rfl

theorem setLocalDepth_ok (localDepth : ℕ) :
 self.setLocalDepth bucketIdx localDepth = .ok { self with
  localDepths := update self.localDepths bucketIdx localDepth } := by
 unfold setLocalDepth
 rw [checkIndex_ok bound]
 rfl

theorem decrLocalDepth_ok (positive : 0 < self.localDepths bucketIdx) :
 self.decrLocalDepth bucketIdx = .ok { self with
  localDepths :=
   update self.localDepths bucketIdx (self.localDepths bucketIdx - 1) } := by
 unfold decrLocalDepth
 rw [checkIndex_ok bound]
 exact congrArg Except.ok (if_pos positive)

end

section

variable (self : ExtendibleHTableDirectoryPage)

theorem copySlot_range (n : ℕ) (le : n ≤ 2 ^ self.globalDepth) :
 let copied := (range n).foldl copySlot self
 copied.maxDepth = self.maxDepth ∧ copied.globalDepth = self.globalDepth ∧
  ∀ slot, slot < 2 ^ self.globalDepth + n →
   copied.localDepths slot =
    self.localDepths (if slot < 2 ^ self.globalDepth then slot
     else slot - 2 ^ self.globalDepth) ∧
   copied.bucketPageIds slot =
    self.bucketPageIds (if slot < 2 ^ self.globalDepth then slot
     else slot - 2 ^ self.globalDepth) := by
 induction n with
 | zero =>
  refine ⟨rfl, rfl, ?_⟩
  intro slot bound
  rw [if_pos (by omega)]
  exact ⟨rfl, rfl⟩
 | succ n ih =>
  obtain ⟨maxDepth, globalDepth, copies⟩ := ih (by omega)
  rw [range_succ, foldl_append]
  refine ⟨maxDepth, globalDepth, ?_⟩
  intro slot bound
  have source := copies n (by omega)
  rw [if_pos (by omega)] at source
  change update _ (n + 1 <<< _) _ slot = _ ∧
   update _ (n + 1 <<< _) _ slot = _
  rw [globalDepth, Nat.one_shiftLeft, source.1, source.2]
  by_cases last : slot = n + 2 ^ self.globalDepth
  · rw [last, update_self, update_self, if_neg (by omega),
     Nat.add_sub_cancel]
    exact ⟨rfl, rfl⟩
  · rw [update_of_ne last, update_of_ne last]
    exact copies slot (by omega)

theorem incrGlobalDepth_grown : Grown self.view self.incrGlobalDepth.view := by
 obtain ⟨-, -, copies⟩ := copySlot_range self (2 ^ self.globalDepth) (le_refl _)
 have lower : ∀ slot < 2 ^ (self.globalDepth + 1),
  (if slot < 2 ^ self.globalDepth then slot else slot - 2 ^ self.globalDepth) =
   slot % 2 ^ self.globalDepth := by
  intro slot bound
  rw [pow_succ] at bound
  by_cases small : slot < 2 ^ self.globalDepth
  · rw [if_pos small, mod_eq_of_lt small]
  · rw [if_neg small, mod_eq_sub_mod (by omega), mod_eq_of_lt (by omega)]
 refine ⟨rfl, ?_, ?_⟩
 · intro slot bound
   change slot < 2 ^ (self.globalDepth + 1) at bound
   change ((range self.size).foldl copySlot self).localDepths slot =
    self.localDepths (slot % 2 ^ self.globalDepth)
   rw [size_eq, ← lower slot bound]
   exact (copies slot (by rw [pow_succ] at bound; omega)).1
 · intro slot bound
   change slot < 2 ^ (self.globalDepth + 1) at bound
   change ((range self.size).foldl copySlot self).bucketPageIds slot =
    self.bucketPageIds (slot % 2 ^ self.globalDepth)
   rw [size_eq, ← lower slot bound]
   exact (copies slot (by rw [pow_succ] at bound; omega)).2

theorem incrGlobalDepth_maxDepth : self.incrGlobalDepth.maxDepth = self.maxDepth := by
 have kept := (copySlot_range self (2 ^ self.globalDepth) (le_refl _)).1
 rw [← size_eq] at kept
 exact kept

end

theorem canShrink_shrunk (shrinks : self.canShrink = true) :
 Shrunk self.view self.decrGlobalDepth.view := by
 unfold canShrink at shrinks
 by_cases zero : self.globalDepth = 0
 · rw [if_pos zero] at shrinks
   cases shrinks
 · rw [if_neg zero, all_eq_true] at shrinks
   unfold decrGlobalDepth
   rw [if_neg zero]
   refine ⟨?_, rfl, rfl, ?_⟩
   · change self.globalDepth = self.globalDepth - 1 + 1
     omega
   · intro slot bound same
     have different := shrinks slot (mem_range.mpr (by rw [size_eq]; exact bound))
     rw [bne_iff_ne] at different
     exact different same

end ExtendibleHTableDirectoryPage

/-! ### The bucket page -/

structure ExtendibleHTableBucketPage (K V : Type*) where
 maxSize : ℕ
 array : List (K × V)

namespace ExtendibleHTableBucketPage

variable {K V : Type*} [DecidableEq K]

def init (maxSize : ℕ) : ExtendibleHTableBucketPage K V := ⟨maxSize, []⟩

section

variable (self : ExtendibleHTableBucketPage K V)

def isFull : Bool := self.array.length == self.maxSize

def isEmpty : Bool := self.array.length == 0

def lookup (key : K) : Option V :=
 (self.array.find? fun entry => entry.1 = key).map Prod.snd

def insert (key : K) (value : V) : ExtendibleHTableBucketPage K V × Bool :=
 if self.isFull then (self, false)
 else if self.array.any fun entry => entry.1 = key then (self, false)
 else ({ self with array := self.array ++ [(key, value)] }, true)

/-- The first entry with the key goes, and the later ones move up. -/
def remove (key : K) : ExtendibleHTableBucketPage K V × Bool :=
 if self.isEmpty then (self, false)
 else if self.array.any fun entry => entry.1 = key then
  ({ self with array := self.array.eraseP fun entry => entry.1 = key }, true)
 else (self, false)

def Distinct : Prop := (self.array.map Prod.fst).Nodup

end

variable {self : ExtendibleHTableBucketPage K V} {key : K} {value : V}

theorem lookup_eq_some_iff (distinct : self.Distinct) :
 self.lookup key = some value ↔ (key, value) ∈ self.array := by
 unfold lookup
 rw [Option.map_eq_some_iff]
 constructor
 · intro ⟨entry, found, same⟩
   have own : entry.1 = key := by simpa using find?_some found
   have member := mem_of_find?_eq_some found
   rw [← own, ← same]
   exact member
 · intro member
   cases found : self.array.find? fun entry => entry.1 = key with
   | none =>
    have differs := find?_eq_none.mp found (key, value) member
    exact absurd (decide_eq_true rfl) differs
   | some entry =>
    have own : entry.1 = key := by simpa using find?_some found
    have present := mem_of_find?_eq_some found
    have same := inj_on_of_nodup_map distinct present member own
    exact ⟨entry, rfl, by rw [same]⟩

theorem lookup_eq_none_iff : self.lookup key = none ↔ ∀ value, (key, value) ∉ self.array := by
 unfold lookup
 rw [Option.map_eq_none_iff, find?_eq_none]
 constructor
 · grind
 · intro absent entry member same
   have own := of_decide_eq_true same
   exact absent entry.2 (by rw [← own]; exact member)

theorem lookup_congr {other : ExtendibleHTableBucketPage K V} (distinct : self.Distinct)
 (otherDistinct : other.Distinct)
 (same : ∀ value, (key, value) ∈ self.array ↔ (key, value) ∈ other.array) :
 self.lookup key = other.lookup key := by
 apply Option.ext
 intro value
 rw [lookup_eq_some_iff distinct, lookup_eq_some_iff otherDistinct, same]

theorem any_eq_lookup (self : ExtendibleHTableBucketPage K V) (key : K) :
 (self.array.any fun entry => entry.1 = key) = (self.lookup key).isSome := by
 unfold lookup
 rw [Option.isSome_map, isSome_find?]

theorem insert_new (absent : self.lookup key = none) (room : self.isFull = false) (value : V) :
 self.insert key value = ({ self with array := self.array ++ [(key, value)] }, true) := by
 unfold insert
 rw [room, any_eq_lookup, absent]
 rfl

theorem distinct_append (distinct : self.Distinct) (absent : self.lookup key = none) (value : V) :
 Distinct { self with array := self.array ++ [(key, value)] } := by
 unfold Distinct
 rw [map_append]
 apply List.Nodup.append distinct (nodup_singleton key)
 intro other member single
 obtain ⟨entry, present, same⟩ := mem_map.mp member
 have own := mem_singleton.mp single
 exact lookup_eq_none_iff.mp absent entry.2 (by rw [← own, ← same]; exact present)

theorem lookup_append_other (self : ExtendibleHTableBucketPage K V) {other : K}
 (different : other ≠ key) (value : V) :
 lookup { self with array := self.array ++ [(key, value)] } other = self.lookup other := by
 unfold lookup
 rw [find?_append]
 cases self.array.find? fun entry => entry.1 = other with
 | some entry => rfl
 | none =>
  rw [Option.none_or, find?_cons_of_neg (by simpa using different.symm), find?_nil]

theorem lookup_append_self (absent : self.lookup key = none) (value : V) :
 lookup { self with array := self.array ++ [(key, value)] } key = some value := by
 unfold lookup at absent ⊢
 rw [find?_append, Option.map_eq_none_iff.mp absent, Option.none_or,
  find?_cons_of_pos (by simp)]
 rfl

theorem remove_absent (absent : self.lookup key = none) :
 self.remove key = (self, false) := by
 unfold remove
 rw [any_eq_lookup, absent]
 split <;> rfl

theorem remove_present (present : self.lookup key = some value) :
 self.remove key =
  ({ self with array := self.array.eraseP fun entry => entry.1 = key }, true) := by
 unfold remove
 rw [any_eq_lookup, present]
 have nonempty : self.isEmpty = false := by
  cases entries : self.array with
  | nil =>
   unfold lookup at present
   rw [entries] at present
   cases present
  | cons entry rest =>
   unfold isEmpty
   rw [entries]
   rfl
 rw [nonempty]
 rfl

theorem distinct_eraseP (distinct : self.Distinct) (key : K) :
 Distinct { self with array := self.array.eraseP fun entry => entry.1 = key } :=
 List.Nodup.sublist ((eraseP_sublist).map Prod.fst) distinct

theorem mem_eraseP (distinct : self.Distinct) {entry : K × V} :
 entry ∈ self.array.eraseP (fun entry => entry.1 = key) ↔
  entry ∈ self.array ∧ entry.1 ≠ key := by
 unfold Distinct at distinct
 generalize self.array = entries at distinct
 induction entries with
 | nil => simp
 | cons front rest ih =>
  obtain ⟨absent, distinct⟩ := nodup_cons.mp distinct
  by_cases own : front.1 = key
  · rw [eraseP_cons_of_pos (by simpa using own), mem_cons]
    constructor
    · grind
    · intro ⟨member, different⟩
      cases member with
      | inl same => exact absurd (same ▸ own) different
      | inr later => exact later
  · rw [eraseP_cons_of_neg (by simpa using own), mem_cons,
     mem_cons, ih distinct]
    constructor
    · intro member
      cases member with
      | inl same => exact ⟨.inl same, same ▸ own⟩
      | inr later => exact ⟨.inr later.1, later.2⟩
    · intro ⟨member, different⟩
      cases member with
      | inl same => exact .inl same
      | inr later => exact .inr ⟨later, different⟩

end ExtendibleHTableBucketPage

end MyNotes.Cmu15445
