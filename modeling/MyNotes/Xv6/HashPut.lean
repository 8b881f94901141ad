/-
`put` of the concurrent hash table of lab 6, with a lock for each bucket.

An entry is known by the number of its allocation, which is what a pointer to it is here.
`insert` of the lab's `ph.c` is a parameter.  Keys are not negative.  Next to the table a run
keeps, for each key, the value of the `put` that has held the lock of its bucket last.
-/

import MyNotes.Library.Transition
import Mathlib.Data.List.Pairwise

namespace MyNotes.Xv6.HashPut

open Library.Transition Function List Function Option

variable {Tid Value : Type} {nbucket : ℕ}

structure Entry (Value : Type) where
 id : ℕ
 key : ℕ
 value : Value

inductive Stage (Value : Type) where
 | idle
 | scanned (key : ℕ) (value : Value) (e : Option ℕ)
 | locked (key : ℕ) (value : Value) (e : Option ℕ)
 | written (key : ℕ)

structure State (Tid Value : Type) where
 table : ℕ → List (Entry Value)
 lock : ℕ → Option Tid
 allocated : ℕ
 /-- The calls that a thread still has to make. -/
 calls : Tid → List (ℕ × Value)
 stage : Tid → Stage Value
 held : ℕ → Option Value

inductive Event (Tid : Type) where
 | scan (tid : Tid)
 | lock (tid : Tid)
 | write (tid : Tid)
 | unlock (tid : Tid)

/-- `insert` of `ph.c` makes an entry and links it into the list. -/
abbrev Insert (Value : Type) := Entry Value → List (Entry Value) → List (Entry Value)

def Inserts (insert : Insert Value) : Prop :=
 ∀ entry bucket, (insert entry bucket).Perm (entry :: bucket)

def bucketOf (nbucket key : ℕ) : ℕ := key % nbucket

def findEntry (key : ℕ) (bucket : List (Entry Value)) : Option ℕ :=
 (bucket.find? fun entry => entry.key = key).map Entry.id

def updateEntry (id : ℕ) (value : Value) (bucket : List (Entry Value)) : List (Entry Value) :=
 bucket.map fun entry => if entry.id = id then { entry with value := value } else entry

def Points (nbucket : ℕ) (table : ℕ → List (Entry Value)) (key id : ℕ) : Prop :=
 ∃ entry ∈ table (bucketOf nbucket key), entry.id = id ∧ entry.key = key

def Absent (nbucket : ℕ) (table : ℕ → List (Entry Value)) (key : ℕ) : Prop :=
 ∀ entry ∈ table (bucketOf nbucket key), entry.key ≠ key

def Valued (nbucket : ℕ) (table : ℕ → List (Entry Value)) (key : ℕ) (value : Value) : Prop :=
 ∃ entry ∈ table (bucketOf nbucket key), entry.key = key ∧ entry.value = value

def Stage.StillAbsent (nbucket : ℕ) (table : ℕ → List (Entry Value)) : Stage Value → Prop
 | .scanned key _ none => Absent nbucket table key
 | _ => True

instance (table : ℕ → List (Entry Value)) :
 ∀ stage : Stage Value, Decidable (stage.StillAbsent nbucket table)
 | .scanned key _ none =>
  inferInstanceAs (Decidable (∀ entry ∈ table (bucketOf nbucket key), entry.key ≠ key))
 | .scanned _ _ (some _) | .idle | .locked _ _ _ | .written _ => .isTrue trivial

namespace State

def start (calls : Tid → List (ℕ × Value)) : State Tid Value where
 table _ := []
 lock _ := none
 allocated := 0
 calls := calls
 stage _ := .idle
 held _ := none

variable [DecidableEq Tid]

def move (self : State Tid Value) (tid : Tid) (stage : Stage Value) : State Tid Value :=
 { self with stage := update self.stage tid stage }

variable (nbucket : ℕ) (insert : Insert Value)

def step (self : State Tid Value) : Event Tid → Option (State Tid Value)
 | .scan tid =>
  match self.stage tid, self.calls tid with
  | .idle, (key, value) :: rest =>
   let e := findEntry key (self.table (bucketOf nbucket key))
   some { self.move tid (.scanned key value e) with
    calls := update self.calls tid rest }
  | _, _ => none
 | .lock tid =>
  match self.stage tid with
  | .scanned key value e =>
   if (self.lock (bucketOf nbucket key)).isNone then
    some { self.move tid (.locked key value e) with
     lock := update self.lock (bucketOf nbucket key) (some tid)
     held := update self.held key (some value) }
   else none
  | _ => none
 | .write tid =>
  match self.stage tid with
  | .locked key value (some id) =>
   let bucket := updateEntry id value (self.table (bucketOf nbucket key))
   some { self.move tid (.written key) with
    table := update self.table (bucketOf nbucket key) bucket }
  | .locked key value none =>
   let entry := ⟨self.allocated, key, value⟩
   let bucket := insert entry (self.table (bucketOf nbucket key))
   some { self.move tid (.written key) with
    table := update self.table (bucketOf nbucket key) bucket
    allocated := self.allocated + 1 }
  | _ => none
 | .unlock tid =>
  match self.stage tid with
  | .written key =>
   some { self.move tid .idle with
    lock := update self.lock (bucketOf nbucket key) none }
  | _ => none

/-- A `put` that has found no entry takes the lock of a bucket that still has none for its
key. -/
def avoids (self : State Tid Value) : Event Tid → Prop
 | .lock tid => (self.stage tid).StillAbsent nbucket self.table
 | _ => True

instance (state : State Tid Value) : ∀ event, Decidable (state.avoids nbucket event)
 | .scan _ | .write _ | .unlock _ => .isTrue trivial
 | .lock tid => inferInstanceAs (Decidable ((state.stage tid).StillAbsent nbucket state.table))

def Finished (self : State Tid Value) : Prop :=
 ∀ tid, self.stage tid = .idle ∧ self.calls tid = []

structure Stores (state : State Tid Value) (calls : Tid → List (ℕ × Value)) : Prop where
 put : ∀ tid key value, (key, value) ∈ calls tid → ∃ entry,
  (state.table (bucketOf nbucket key)).filter (fun entry => entry.key = key) = [entry] ∧
   state.held key = some entry.value
 only : ∀ index, ∀ entry ∈ state.table index, bucketOf nbucket entry.key = index ∧
  ∃ tid value, (entry.key, value) ∈ calls tid

/-! ### Steps -/

variable {nbucket insert}

inductive Performed (nbucket : ℕ) (insert : Insert Value) (state : State Tid Value) :
 Event Tid → State Tid Value → Prop
 | scan {tid : Tid} {key : ℕ} {value : Value} {rest : List (ℕ × Value)}
  (idle : state.stage tid = .idle) (calls : state.calls tid = (key, value) :: rest) :
  Performed nbucket insert state (.scan tid)
   { state.move tid
    (.scanned key value (findEntry key (state.table (bucketOf nbucket key)))) with
    calls := update state.calls tid rest }
 | lock {tid : Tid} {key : ℕ} {value : Value} {e : Option ℕ}
  (scanned : state.stage tid = .scanned key value e)
  (free : state.lock (bucketOf nbucket key) = none) :
  Performed nbucket insert state (.lock tid)
   { state.move tid (.locked key value e) with
    lock := update state.lock (bucketOf nbucket key) (some tid)
    held := update state.held key (some value) }
 | update {tid : Tid} {key : ℕ} {value : Value} {id : ℕ}
  (locked : state.stage tid = .locked key value (some id)) :
  Performed nbucket insert state (.write tid)
   { state.move tid (.written key) with
    table := update state.table (bucketOf nbucket key)
     (updateEntry id value (state.table (bucketOf nbucket key))) }
 | insert {tid : Tid} {key : ℕ} {value : Value}
  (locked : state.stage tid = .locked key value none) :
  Performed nbucket insert state (.write tid)
   { state.move tid (.written key) with
    table := update state.table (bucketOf nbucket key)
     (insert ⟨state.allocated, key, value⟩ (state.table (bucketOf nbucket key)))
    allocated := state.allocated + 1 }
 | unlock {tid : Tid} {key : ℕ} (written : state.stage tid = .written key) :
  Performed nbucket insert state (.unlock tid)
   { state.move tid .idle with
    lock := update state.lock (bucketOf nbucket key) none }

variable {state next : State Tid Value} {event : Event Tid} {tid : Tid}

theorem performed (taken : state.step nbucket insert event = some next) :
 state.Performed nbucket insert event next := by
 cases event with
 | scan tid =>
  simp only [step] at taken
  split at taken
  · rename_i idle calls
    cases taken
    exact .scan idle calls
  · cases taken
 | lock tid =>
  simp only [step] at taken
  split at taken
  · rename_i scanned
    split at taken
    · rename_i free
      cases taken
      exact .lock scanned (isNone_iff_eq_none.mp free)
    · cases taken
  · cases taken
 | write tid =>
  simp only [step] at taken
  split at taken
  · rename_i locked
    cases taken
    exact .update locked
  · rename_i locked
    cases taken
    exact .insert locked
  · cases taken
 | unlock tid =>
  simp only [step] at taken
  split at taken
  · rename_i written
    cases taken
    exact .unlock written
  · cases taken

end State

/-! ### Tables -/

structure Sound (nbucket : ℕ) (table : ℕ → List (Entry Value)) (allocated : ℕ) : Prop where
 place : ∀ index, ∀ entry ∈ table index, bucketOf nbucket entry.key = index
 ids : ∀ index, (table index).Pairwise fun left right => left.id ≠ right.id
 old : ∀ index, ∀ entry ∈ table index, entry.id < allocated
 keys : ∀ index, (table index).Pairwise fun left right => left.key ≠ right.key

variable {allocated key id : ℕ} {value : Value} {table : ℕ → List (Entry Value)}
 {entry other : Entry Value} {bucket : List (Entry Value)}

theorem eq_of_id (ids : bucket.Pairwise fun left right => left.id ≠ right.id)
 (member : entry ∈ bucket) (otherMember : other ∈ bucket) (same : entry.id = other.id) :
 entry = other := by
 by_contra different
 have symmetric : Std.Symm fun left right : Entry Value => left.id ≠ right.id :=
  ⟨fun _ _ distinct => Ne.symm distinct⟩
 exact ids.forall member otherMember different same

theorem mem_updateEntry (member : other ∈ updateEntry id value bucket) :
 ∃ entry ∈ bucket, other.id = entry.id ∧ other.key = entry.key ∧
  other.value = if entry.id = id then value else entry.value := by
 obtain ⟨entry, inside, same⟩ := mem_map.mp member
 refine ⟨entry, inside, ?_⟩
 rw [← same]
 split
 · exact ⟨rfl, rfl, rfl⟩
 · exact ⟨rfl, rfl, rfl⟩

theorem updateEntry_mem (member : entry ∈ bucket) : ∃ other ∈ updateEntry id value bucket,
 other.id = entry.id ∧ other.key = entry.key ∧
  other.value = if entry.id = id then value else entry.value := by
 refine ⟨_, mem_map_of_mem member, ?_⟩
 split
 · exact ⟨rfl, rfl, rfl⟩
 · exact ⟨rfl, rfl, rfl⟩

theorem updateEntry_pairwise {Field : Type} (field : Entry Value → Field)
 (kept : ∀ entry : Entry Value, field { entry with value := value } = field entry)
 (pairwise : bucket.Pairwise fun left right => field left ≠ field right) :
 (updateEntry id value bucket).Pairwise fun left right => field left ≠ field right := by
 have same (entry : Entry Value) :
  field (if entry.id = id then { entry with value := value } else entry) = field entry := by
  split
  · exact kept entry
  · rfl
 refine pairwise_map.mpr (pairwise.imp fun {left right} distinct => ?_)
 rw [same, same]
 exact distinct

theorem forall_update (property : ℕ → List (Entry Value) → Prop) {index : ℕ}
 (all : ∀ index, property index (table index)) (here : property index bucket) (other : ℕ) :
 property other (update table index bucket other) := by
 by_cases same : other = index
 · rw [same, update_self]
   exact here
 · rw [update_of_ne same]
   exact all other

theorem Sound.update (sound : Sound nbucket table allocated) (index : ℕ) :
 Sound nbucket (update table index (updateEntry id value (table index)))
  allocated where
 place := by
  refine forall_update (fun index bucket => ∀ entry ∈ bucket, bucketOf nbucket entry.key = index)
   sound.place fun entry member => ?_
  obtain ⟨before, inside, -, key, -⟩ := mem_updateEntry member
  rw [key]
  exact sound.place index before inside
 ids := forall_update (fun _ bucket => bucket.Pairwise fun left right => left.id ≠ right.id)
  sound.ids (updateEntry_pairwise Entry.id (fun _ => rfl) (sound.ids index))
 old := by
  refine forall_update (fun _ bucket => ∀ entry ∈ bucket, entry.id < allocated)
   sound.old fun entry member => ?_
  obtain ⟨before, inside, id, -⟩ := mem_updateEntry member
  rw [id]
  exact sound.old index before inside
 keys := forall_update (fun _ bucket => bucket.Pairwise fun left right => left.key ≠ right.key)
  sound.keys (updateEntry_pairwise Entry.key (fun _ => rfl) (sound.keys index))

variable {link : Insert Value}

theorem mem_insert (inserts : Inserts link) :
 other ∈ link entry bucket ↔ other = entry ∨ other ∈ bucket :=
 (inserts entry bucket).mem_iff.trans mem_cons

theorem Sound.insert (sound : Sound nbucket table allocated) (inserts : Inserts link)
 (absent : ∀ entry ∈ table (bucketOf nbucket key), entry.key ≠ key) :
 Sound nbucket (Function.update table (bucketOf nbucket key)
  (link ⟨allocated, key, value⟩ (table (bucketOf nbucket key)))) (allocated + 1) where
 place := by
  refine forall_update (fun index bucket => ∀ entry ∈ bucket, bucketOf nbucket entry.key = index)
   sound.place fun entry member => ?_
  rcases (mem_insert inserts).mp member with same | before
  · rw [same]
  · exact sound.place _ entry before
 ids := by
  refine forall_update (fun _ bucket => bucket.Pairwise fun left right => left.id ≠ right.id)
   sound.ids (((inserts _ _).pairwise_iff fun distinct => distinct.symm).mpr
    (pairwise_cons.mpr ⟨?_, sound.ids _⟩))
  exact fun entry member => Nat.ne_of_gt (sound.old _ entry member)
 old := by
  refine forall_update (fun _ bucket => ∀ entry ∈ bucket, entry.id < allocated + 1)
   (fun index entry member => Nat.lt_succ_of_lt (sound.old index entry member))
   fun entry member => ?_
  rcases (mem_insert inserts).mp member with same | before
  · simp_all
  · exact Nat.lt_succ_of_lt (sound.old _ entry before)
 keys := by
  refine forall_update (fun _ bucket => bucket.Pairwise fun left right => left.key ≠ right.key)
   sound.keys (((inserts _ _).pairwise_iff fun distinct => distinct.symm).mpr
    (pairwise_cons.mpr ⟨?_, sound.keys _⟩))
  grind

theorem findEntry_some (found : findEntry key bucket = some id) :
 ∃ entry ∈ bucket, entry.id = id ∧ entry.key = key := by
 obtain ⟨entry, first, same⟩ := map_eq_some_iff.mp found
 have hasKey := List.find?_some first
 grind

/-! ### Runs -/

def Stage.Good (nbucket : ℕ) (state : State Tid Value) (tid : Tid) : Stage Value → Prop
 | .idle => True
 | .scanned key _ e => ∀ id ∈ e, Points nbucket state.table key id
 | .locked key value e => state.lock (bucketOf nbucket key) = some tid ∧
  state.held key = some value ∧ (∀ id ∈ e, Points nbucket state.table key id) ∧
  (e = none → Absent nbucket state.table key)
 | .written key => state.lock (bucketOf nbucket key) = some tid

namespace State

structure Consistent (nbucket : ℕ) (calls : Tid → List (ℕ × Value)) (state : State Tid Value) :
 Prop where
 sound : Sound nbucket state.table state.allocated
 good : ∀ tid, (state.stage tid).Good nbucket state tid
 held : ∀ {key value}, state.held key = some value →
  (∃ tid e, state.stage tid = .locked key value e) ∨ Valued nbucket state.table key value
 stored : ∀ index, ∀ entry ∈ state.table index, state.held entry.key ≠ none
 asked : ∀ {key}, state.held key ≠ none → ∃ tid value, (key, value) ∈ calls tid
 remaining : ∀ {tid call}, call ∈ state.calls tid → call ∈ calls tid
 current : ∀ {tid key value e}, state.stage tid = .scanned key value e →
  (key, value) ∈ calls tid
 done : ∀ {tid key value}, (key, value) ∈ calls tid → (key, value) ∈ state.calls tid ∨
  (∃ e, state.stage tid = .scanned key value e) ∨ state.held key ≠ none

variable {calls : Tid → List (ℕ × Value)}

theorem start_consistent : Consistent nbucket calls (start calls) where
 sound :=
  { place := fun _ _ member => absurd member not_mem_nil
    ids := fun _ => .nil
    old := fun _ _ member => absurd member not_mem_nil
    keys := fun _ => .nil }
 good _ := trivial
 held := nofun
 stored _ _ member := absurd member not_mem_nil
 asked none := absurd rfl none
 remaining member := member
 current := nofun
 done member := .inl member

/-- The buckets that a thread has locked stay as they are, and pointers stay good. -/
structure Leaves (nbucket : ℕ) (state next : State Tid Value) (tid : Tid) : Prop where
 points : ∀ {key id}, Points nbucket state.table key id → Points nbucket next.table key id
 locked : ∀ {index}, state.lock index = some tid → next.lock index = some tid ∧
  next.table index = state.table index ∧
  ∀ key, bucketOf nbucket key = index → next.held key = state.held key

variable {stage : Stage Value}

theorem Leaves.good {state next : State Tid Value} {tid : Tid}
 (leaves : Leaves nbucket state next tid) (good : stage.Good nbucket state tid) :
 stage.Good nbucket next tid := by
 cases stage with
 | idle => trivial
 | scanned key value e => exact fun id found => leaves.points (good id found)
 | locked key value e =>
  obtain ⟨owns, last, points, absent⟩ := good
  obtain ⟨stillOwns, same, held⟩ := leaves.locked owns
  refine ⟨stillOwns, (held key rfl).trans last, fun id found => leaves.points (points id found),
   fun none => ?_⟩
  unfold Absent
  rw [same]
  exact absent none
 | written key => exact (leaves.locked good).1

variable [DecidableEq Tid] {state next : State Tid Value} {event : Event Tid} {tid : Tid}
 {key id : ℕ} {value : Value} {e : Option ℕ} {rest : List (ℕ × Value)}

theorem forall_stage (property : Tid → Stage Value → Prop) (here : property tid stage)
 (others : ∀ other ≠ tid, property other (state.stage other)) (other : Tid) :
 property other (update state.stage tid stage other) := by
 by_cases same : other = tid
 · rw [same, update_self]
   exact here
 · simp_all

theorem stage_elsewhere {other : Tid} {before was : Stage Value} (mine : state.stage tid = before)
 (theirs : state.stage other = was) (different : was ≠ before) :
 update state.stage tid stage other = was := by
 grind

section

variable (consistent : state.Consistent nbucket calls)
include consistent

theorem Consistent.scan (idle : state.stage tid = .idle)
 (called : state.calls tid = (key, value) :: rest) :
 Consistent nbucket calls
  { state.move tid
   (.scanned key value (findEntry key (state.table (bucketOf nbucket key)))) with
   calls := update state.calls tid rest } where
 sound := consistent.sound
 good := by
  refine forall_stage (fun other stage => stage.Good nbucket _ other) ?_ fun other _ => ?_
  · exact fun id found => findEntry_some found
  · refine Leaves.good ?_ (consistent.good other)
    exact ⟨fun points => points, fun owns => ⟨owns, rfl, fun _ _ => rfl⟩⟩
 held {key value} last := by
  refine (consistent.held last).imp_left ?_
  rintro ⟨other, e, locked⟩
  exact ⟨other, e, stage_elsewhere idle locked nofun⟩
 stored := consistent.stored
 asked := consistent.asked
 remaining {other call} := by
  change call ∈ update state.calls tid rest other → _
  by_cases here : other = tid
  · subst here
    rw [update_self]
    exact fun member => consistent.remaining (called ▸ mem_cons_of_mem _ member)
  · rw [update_of_ne here]
    exact consistent.remaining
 current {other asked now e} := by
  refine forall_stage
   (fun other stage => stage = .scanned asked now e → (asked, now) ∈ calls other)
   ?_ (fun other _ => consistent.current) other
  intro same
  cases same
  exact consistent.remaining (called ▸ mem_cons_self)
 done {other asked now} member := by
  rcases consistent.done member with waiting | ⟨e, scanned⟩ | last
  · by_cases here : other = tid
    · subst here
      rw [called] at waiting
      rcases mem_cons.mp waiting with first | later
      · cases first
        exact .inr (.inl ⟨_, update_self _ _ _⟩)
      · simp_all
    · simp_all
  · exact .inr (.inl ⟨e, stage_elsewhere idle scanned nofun⟩)
  · exact .inr (.inr last)

theorem Consistent.lock (scanned : state.stage tid = .scanned key value e)
 (free : state.lock (bucketOf nbucket key) = none)
 (avoids : e = none → Absent nbucket state.table key) :
 Consistent nbucket calls
  { state.move tid (.locked key value e) with
   lock := update state.lock (bucketOf nbucket key) (some tid)
   held := update state.held key (some value) } where
 sound := consistent.sound
 good := by
  refine forall_stage (fun other stage => stage.Good nbucket _ other) ?_ fun other _ => ?_
  · have points := consistent.good tid
    rw [scanned] at points
    exact ⟨update_self _ _ _, update_self _ _ _, points, avoids⟩
  · refine Leaves.good ?_ (consistent.good other)
    refine ⟨fun points => points, fun {index} owns => ?_⟩
    have elsewhere : index ≠ bucketOf nbucket key := by
     intro here
     cases (here ▸ owns).symm.trans free
    refine ⟨(update_of_ne elsewhere _ _).trans owns, rfl, fun another inside => ?_⟩
    grind
 held {another now} last := by
  change update state.held key (some value) another = some now at last
  by_cases same : another = key
  · subst same
    rw [update_self] at last
    cases last
    exact .inl ⟨tid, e, update_self _ _ _⟩
  · rw [update_of_ne same] at last
    refine (consistent.held last).imp_left ?_
    rintro ⟨other, found, locked⟩
    exact ⟨other, found, stage_elsewhere scanned locked nofun⟩
 stored index entry member := by
  change update state.held key (some value) entry.key ≠ none
  by_cases same : entry.key = key
  · simp_all
  · rw [update_of_ne same]
    exact consistent.stored index entry member
 asked {another} last := by
  change update state.held key (some value) another ≠ none at last
  by_cases same : another = key
  · exact ⟨tid, value, same ▸ consistent.current scanned⟩
  · rw [update_of_ne same] at last
    exact consistent.asked last
 remaining := consistent.remaining
 current {other asked now found} := forall_stage
  (fun other stage => stage = .scanned asked now found → (asked, now) ∈ calls other)
  (fun same => by cases same) (fun _ _ => consistent.current) other
 done {other another now} member := by
  have kept (last : state.held another ≠ none) :
   update state.held key (some value) another ≠ none := by
   by_cases same : another = key
   · simp_all
   · rw [update_of_ne same]
     exact last
  rcases consistent.done member with waiting | ⟨found, was⟩ | last
  · exact .inl waiting
  · by_cases here : other = tid
    · simp_all
    · exact .inr (.inl ⟨found, (update_of_ne here _ _).trans was⟩)
  · exact .inr (.inr (kept last))

theorem Consistent.write (locked : state.stage tid = .locked key value e)
 (sound : Sound nbucket (update state.table (bucketOf nbucket key) bucket) allocated)
 (kept : ∀ entry ∈ state.table (bucketOf nbucket key), ∃ other ∈ bucket, other.id = entry.id ∧
  other.key = entry.key ∧ (entry.key ≠ key → other.value = entry.value))
 (new : ∃ entry ∈ bucket, entry.key = key ∧ entry.value = value)
 (known : ∀ entry ∈ bucket, entry.key = key ∨
  ∃ other ∈ state.table (bucketOf nbucket key), other.key = entry.key) :
 Consistent nbucket calls
  { state.move tid (.written key) with
   table := update state.table (bucketOf nbucket key) bucket
   allocated := allocated } where
 sound := sound
 good := by
  have mine := consistent.good tid
  rw [locked] at mine
  refine forall_stage (fun other stage => stage.Good nbucket _ other) mine.1
   fun other elsewhere => ?_
  refine Leaves.good ?_ (consistent.good other)
  refine ⟨?_, fun {index} owns => ⟨owns, ?_, fun _ _ => rfl⟩⟩
  · rintro another id ⟨entry, inside, isId, isKey⟩
    by_cases same : bucketOf nbucket another = bucketOf nbucket key
    · obtain ⟨after, member, sameId, sameKey, -⟩ := kept entry (same ▸ inside)
      refine ⟨after, ?_, sameId.trans isId, sameKey.trans isKey⟩
      simp_all
    · refine ⟨entry, ?_, isId, isKey⟩
      simp_all
  · refine update_of_ne ?_ _ _
    intro same
    exact elsewhere (some.inj ((same ▸ owns).symm.trans mine.1))
 held {another now} last := by
  by_cases same : another = key
  · subst same
    have mine := consistent.good tid
    rw [locked] at mine
    cases last.symm.trans mine.2.1
    obtain ⟨entry, member, isKey, isValue⟩ := new
    refine .inr ⟨entry, ?_, isKey, isValue⟩
    simp_all
  · rcases consistent.held last with ⟨other, found, was⟩ | ⟨entry, inside, isKey, isValue⟩
    · refine .inl ⟨other, found, stage_elsewhere locked was ?_⟩
      simp_all
    · right
      by_cases sameBucket : bucketOf nbucket another = bucketOf nbucket key
      · obtain ⟨after, member, -, sameKey, sameValue⟩ := kept entry (sameBucket ▸ inside)
        refine ⟨after, ?_, sameKey.trans isKey, (sameValue (isKey ▸ same)).trans isValue⟩
        simp_all
      · refine ⟨entry, ?_, isKey, isValue⟩
        simp_all
 stored := by
  refine forall_update (fun _ bucket => ∀ entry ∈ bucket, state.held entry.key ≠ none)
   consistent.stored fun entry member => ?_
  rcases known entry member with same | ⟨other, inside, same⟩
  · have mine := consistent.good tid
    rw [locked] at mine
    rw [same, mine.2.1]
    exact some_ne_none value
  · rw [← same]
    exact consistent.stored _ other inside
 asked := consistent.asked
 remaining := consistent.remaining
 current {other asked now found} := forall_stage
  (fun other stage => stage = .scanned asked now found → (asked, now) ∈ calls other)
  (fun same => by cases same) (fun _ _ => consistent.current) other
 done {other asked now} member := by
  rcases consistent.done member with waiting | ⟨found, was⟩ | last
  · exact .inl waiting
  · exact .inr (.inl ⟨found, stage_elsewhere locked was nofun⟩)
  · exact .inr (.inr last)

theorem Consistent.unlock (written : state.stage tid = .written key) :
 Consistent nbucket calls
  { state.move tid .idle with
   lock := update state.lock (bucketOf nbucket key) none } where
 sound := consistent.sound
 good := by
  have mine := consistent.good tid
  rw [written] at mine
  refine forall_stage (fun other stage => stage.Good nbucket _ other) trivial
   fun other elsewhere => ?_
  refine Leaves.good ?_ (consistent.good other)
  refine ⟨fun points => points, fun {index} owns => ⟨?_, rfl, fun _ _ => rfl⟩⟩
  refine (update_of_ne ?_ _ _).trans owns
  intro same
  exact elsewhere (some.inj ((same ▸ owns).symm.trans mine))
 held {another now} last := by
  refine (consistent.held last).imp_left ?_
  rintro ⟨other, found, locked⟩
  exact ⟨other, found, stage_elsewhere written locked nofun⟩
 stored := consistent.stored
 asked := consistent.asked
 remaining := consistent.remaining
 current {other asked now found} := forall_stage
  (fun other stage => stage = .scanned asked now found → (asked, now) ∈ calls other)
  (fun same => by cases same) (fun _ _ => consistent.current) other
 done {other asked now} member := by
  rcases consistent.done member with waiting | ⟨found, was⟩ | last
  · exact .inl waiting
  · exact .inr (.inl ⟨found, stage_elsewhere written was nofun⟩)
  · exact .inr (.inr last)

end

variable {link : Insert Value}

theorem Consistent.step (consistent : state.Consistent nbucket calls) (inserts : Inserts link)
 (avoids : state.avoids nbucket event) (taken : state.step nbucket link event = some next) :
 next.Consistent nbucket calls := by
 cases performed taken with
 | scan idle called => exact consistent.scan idle called
 | @lock tid key value e scanned free =>
  refine consistent.lock scanned free ?_
  intro none
  simp only [State.avoids, scanned, none] at avoids
  exact avoids
 | @update tid key value id locked =>
  have mine := consistent.good tid
  rw [locked] at mine
  obtain ⟨entry, inside, isId, isKey⟩ := mine.2.2.1 id rfl
  refine consistent.write locked (consistent.sound.update _) ?_ ?_ ?_
  · intro other member
    have updated : ∃ after ∈ updateEntry id value _, _ := updateEntry_mem member
    obtain ⟨after, inside', sameId, sameKey, isValue⟩ := updated
    refine ⟨after, inside', sameId, sameKey, fun different => ?_⟩
    rw [isValue, if_neg]
    intro atEntry
    have same := eq_of_id (consistent.sound.ids _) member inside (atEntry.trans isId.symm)
    exact different (same ▸ isKey)
  · have updated : ∃ after ∈ updateEntry id value _, _ := updateEntry_mem inside
    grind
  · intro after member
    obtain ⟨before, inside, -, sameKey, -⟩ := mem_updateEntry member
    exact .inr ⟨before, inside, sameKey.symm⟩
 | @insert tid key value locked =>
  have mine := consistent.good tid
  rw [locked] at mine
  refine consistent.write locked (consistent.sound.insert inserts (mine.2.2.2 rfl)) ?_ ?_ ?_
  · exact fun entry member => ⟨entry, (mem_insert inserts).mpr (.inr member), rfl, rfl,
     fun _ => rfl⟩
  · exact ⟨_, (mem_insert inserts).mpr (.inl rfl), rfl, rfl⟩
  · intro entry member
    rcases (mem_insert inserts).mp member with same | before
    · exact .inl (congrArg Entry.key same)
    · exact .inr ⟨entry, before, rfl⟩
 | unlock written => exact consistent.unlock written

theorem filter_key (keys : bucket.Pairwise fun left right => left.key ≠ right.key)
 (member : entry ∈ bucket) :
 bucket.filter (fun other => other.key = entry.key) = [entry] := by
 induction bucket with
 | nil => exact absurd member not_mem_nil
 | cons head rest ih =>
  obtain ⟨first, later⟩ := pairwise_cons.mp keys
  rcases mem_cons.mp member with same | inside
  · subst same
    have none : rest.filter (fun other => other.key = entry.key) = [] := by
     rw [filter_eq_nil_iff]
     intro other inside same
     exact first other inside (of_decide_eq_true same).symm
    simp_all
  · simp_all

omit [DecidableEq Tid] in
theorem Consistent.stores (consistent : state.Consistent nbucket calls)
 (finished : state.Finished) : state.Stores nbucket calls where
 put tid key value member := by
  have last : state.held key ≠ none := by
   rcases consistent.done member with waiting | ⟨e, scanned⟩ | last
   · rw [(finished tid).2] at waiting
     exact absurd waiting not_mem_nil
   · cases (finished tid).1.symm.trans scanned
   · exact last
  obtain ⟨value, held⟩ := ne_none_iff_exists'.mp last
  rcases consistent.held held with ⟨other, e, locked⟩ | ⟨entry, inside, isKey, isValue⟩
  · cases (finished other).1.symm.trans locked
  · refine ⟨entry, ?_, held.trans (congrArg some isValue.symm)⟩
    rw [← isKey]
    exact filter_key (consistent.sound.keys _) (isKey ▸ inside)
 only index entry member :=
  ⟨consistent.sound.place index entry member,
   consistent.asked (consistent.stored index entry member)⟩

/-- In a run in which no `put` that found nothing locks a bucket that has its key by then, the
table ends as the map of the last values. -/
theorem put_stores (nbucket : ℕ) (link : Insert Value) (inserts : Inserts link)
 (calls : Tid → List (ℕ × Value)) (events : List (Event Tid)) (final : State Tid Value)
 (run : Run (Guarded (avoids nbucket) (ofFunction (State.step nbucket link))) (start calls)
  events final) (finished : final.Finished) : final.Stores nbucket calls := by
 have consistent : final.Consistent nbucket calls :=
  run.invariant start_consistent fun _ _ _ before taken => before.step inserts taken.1 taken.2
 exact consistent.stores finished

theorem put_stores_two : ∃ final : State Bool ℕ, final.held 1 = some 20 ∧
 final.Stores 5 fun tid => if tid then [(1, 10)] else [(1, 20)] := by
 obtain ⟨final, same, idle, calls, held⟩ : ∃ final,
  replay (restrict (avoids 5) (State.step 5 List.cons))
   (start fun tid => if tid then [(1, 10)] else [(1, 20)])
   [.scan true, .lock true, .write true, .unlock true, .scan false, .lock false,
    .write false, .unlock false] = some final ∧
   (∀ tid, final.stage tid = .idle) ∧ (∀ tid, final.calls tid = []) ∧
   final.held 1 = some 20 :=
  ⟨_, rfl, by rintro (_ | _) <;> rfl, by rintro (_ | _) <;> rfl, rfl⟩
 refine ⟨final, held, ?_⟩
 exact put_stores 5 List.cons (fun _ _ => .refl _) _ _ final (Run.of_replay same)
  fun tid => ⟨idle tid, calls tid⟩

/-- Two threads look for the key before either of them has locked the bucket. -/
theorem put_twice_inserts_twice : ∃ final : State Bool ℕ, ∃ events,
 Run (ofFunction (State.step 5 List.cons))
  (start fun tid => if tid then [(1, 10)] else [(1, 20)]) events final ∧ final.Finished ∧
  ¬ final.Stores 5 fun tid => if tid then [(1, 10)] else [(1, 20)] := by
 obtain ⟨final, same, idle, calls, table⟩ : ∃ final,
  replay (State.step 5 List.cons) (start fun tid => if tid then [(1, 10)] else [(1, 20)])
   [.scan true, .scan false, .lock true, .write true, .unlock true, .lock false,
    .write false, .unlock false] = some final ∧
   (∀ tid, final.stage tid = .idle) ∧ (∀ tid, final.calls tid = []) ∧
   final.table 1 = [⟨1, 1, 20⟩, ⟨0, 1, 10⟩] :=
  ⟨_, rfl, by rintro (_ | _) <;> rfl, by rintro (_ | _) <;> rfl, rfl⟩
 refine ⟨final, _, Run.of_replay_all same, fun tid => ⟨idle tid, calls tid⟩, ?_⟩
 intro stores
 obtain ⟨entry, only, -⟩ := stores.put true 1 10 mem_cons_self
 change (final.table 1).filter _ = _ at only
 rw [table] at only
 cases only

end State

end MyNotes.Xv6.HashPut
