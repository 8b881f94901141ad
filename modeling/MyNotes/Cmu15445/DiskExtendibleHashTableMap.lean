/-
The extendible hash table is a map, as long as every split is a right one.

The split image is computed as if the bucket had two slots and the key's slot were
the lower one.  A bucket with more slots is split in the wrong place, and one more
split of it then takes the page of the first split image away.
-/

import MyNotes.Library.Transition
import MyNotes.Cmu15445.DiskExtendibleHashTableRemove

namespace MyNotes.Cmu15445.DiskExtendibleHashTable

open Library.Transition Function

variable {K V : Type} [DecidableEq K]

def record (map : K → Option V) : Operation K V × Result V → K → Option V
 | (.insert key value, .done true) => update map key (some value)
 | (.remove key, .done true) => update map key none
 | _ => map

/-- The value of the latest successful operation on each key. -/
def latest (log : List (Operation K V × Result V)) : K → Option V :=
 log.foldl record fun _ => none

/-- A table with the operations on it so far, and their results. -/
structure Recorded (K V : Type) where
 table : DiskExtendibleHashTable K V
 log : List (Operation K V × Result V)

def step (update : DirectoryUpdate) (self : Recorded K V) (operation : Operation K V) :
 Option (Recorded K V) :=
 match self.table.perform update operation with
 | .ok (table, result) => some ⟨table, self.log ++ [(operation, result)]⟩
 | .error _ => none

/-- Inserts come when the split that they need is a right one. -/
def SplitsRight (self : Recorded K V) : Operation K V → Prop
 | .insert key _ => self.table.Splittable key
 | _ => True

instance (self : DiskExtendibleHashTable K V) (key : K) : Decidable (self.Splittable key) :=
 inferInstanceAs (Decidable (self.directoryId (self.owner key) ≠ invalidPageId →
  (self.bucketOf key).lookup key = none → (self.bucketOf key).isFull = true → _ → _))

instance (self : Recorded K V) (operation : Operation K V) :
 Decidable (SplitsRight self operation) :=
 match operation with
 | .insert key _ => inferInstanceAs (Decidable (self.table.Splittable key))
 | .remove _ | .getValue _ => inferInstanceAs (Decidable True)

/-- The table is the map of its history, and the next operation returns. -/
structure IsMap (update : DirectoryUpdate) (state : Recorded K V) : Prop where
 found : ∀ key, state.table.getValue key = .ok (latest state.log key)
 returns : ∀ operation, SplitsRight state operation →
  ∃ result, state.table.perform update operation = .ok result
 refused : ∀ key value next, SplitsRight state (.insert key value) →
  state.table.perform update (.insert key value) = .ok (next, .done false) →
   ∀ other, next.getValue other = state.table.getValue other

/-- The table is sound and finds what its history says. -/
structure Faithful (bucketMaxSize : ℕ) (state : Recorded K V) : Prop where
 sound : state.table.Sound
 size : state.table.bucketMaxSize = bucketMaxSize
 found : ∀ key, state.table.find key = latest state.log key

section

variable {update : DirectoryUpdate} (updates : Updates update)
include updates

theorem perform_ok {self : DiskExtendibleHashTable K V} (sound : self.Sound)
 (positive : 1 ≤ self.bucketMaxSize) (operation : Operation K V)
 (ready : ∀ key value, operation = .insert key value → self.Splittable key) :
 ∃ new result, self.perform update operation = .ok (new, result) ∧ new.Sound ∧
  SameShape self new ∧ new.find = record self.find (operation, result) := by
 cases operation with
 | insert key value =>
  obtain ⟨new, done, called, outcome⟩ := insert_ok sound positive (ready key value rfl) value
  unfold perform
  dsimp only
  rw [called]
  refine ⟨new, .done done, rfl, ?_⟩
  cases done with
  | true =>
   refine ⟨outcome.sound, outcome.shape, funext fun other => ?_⟩
   rw [outcome.find]
   exact (update_apply _ _ _ _).symm
  | false => exact ⟨outcome.sound, outcome.shape, funext outcome.find⟩
 | remove key =>
  obtain ⟨new, done, called, removed, kept⟩ := remove_ok updates sound key
  unfold perform
  dsimp only
  rw [called]
  refine ⟨new, .done done, rfl, ?_⟩
  cases done with
  | true =>
   have outcome := removed rfl
   refine ⟨outcome.sound, outcome.shape, funext fun other => ?_⟩
   rw [outcome.find]
   exact (update_apply _ _ _ _).symm
  | false =>
   have outcome := (kept rfl).1
   exact ⟨outcome.sound, outcome.shape, funext outcome.find⟩
 | getValue key =>
  unfold perform
  dsimp only
  rw [getValue_ok sound]
  exact ⟨self, _, rfl, sound, ⟨rfl, rfl, rfl⟩, rfl⟩

theorem Faithful.step {bucketMaxSize : ℕ} (positive : 1 ≤ bucketMaxSize) {state next : Recorded K V}
 {operation : Operation K V} (faithful : Faithful bucketMaxSize state)
 (right : SplitsRight state operation) (taken : step update state operation = some next) :
 Faithful bucketMaxSize next := by
 obtain ⟨new, result, performed, sound, shape, found⟩ := perform_ok updates faithful.sound
  (by rw [faithful.size]; exact positive) operation (fun key value same => by
   rw [same] at right
   exact right)
 unfold DiskExtendibleHashTable.step at taken
 rw [performed] at taken
 cases taken
 refine ⟨sound, shape.bucketMaxSize.trans faithful.size, ?_⟩
 intro key
 rw [found, funext faithful.found]
 unfold latest
 rw [List.foldl_append]
 rfl

theorem Faithful.isMap {bucketMaxSize : ℕ} (positive : 1 ≤ bucketMaxSize) {state : Recorded K V}
 (faithful : Faithful bucketMaxSize state) : IsMap update state where
 found := by
  intro key
  rw [getValue_ok faithful.sound, faithful.found]
 returns := by
  intro operation right
  obtain ⟨new, result, performed, -⟩ := perform_ok updates faithful.sound
   (by rw [faithful.size]; exact positive) operation (fun key value same => by
    rw [same] at right
    exact right)
  exact ⟨_, performed⟩
 refused := by
  intro key value next right performed other
  obtain ⟨new, result, called, sound, -, found⟩ := perform_ok updates faithful.sound
   (by rw [faithful.size]; exact positive) (.insert key value) (fun key value same => by
    cases same
    exact right)
  rw [called] at performed
  cases performed
  rw [getValue_ok sound, getValue_ok faithful.sound, found]
  rfl

end

/-- In every run whose inserts all split right, `GetValue` finds what the latest
successful operation on the key stored, and every operation returns. -/
theorem hash_table_map {update : DirectoryUpdate} (updates : Updates update) (hash : K → UInt32)
 (headerMaxDepth directoryMaxDepth : ℕ) {bucketMaxSize : ℕ} (positive : 1 ≤ bucketMaxSize)
 {operations : List (Operation K V)} {state : Recorded K V}
 (run : Run (Guarded SplitsRight (ofFunction (step update)))
  ⟨.new hash headerMaxDepth directoryMaxDepth bucketMaxSize, []⟩ operations state) :
 IsMap update state := by
 have faithful : Faithful bucketMaxSize state := by
  apply run.invariant
  · exact ⟨new_sound hash headerMaxDepth directoryMaxDepth bucketMaxSize, rfl, fun _ => rfl⟩
  · intro before operation next faithful taken
    exact faithful.step updates positive taken.1 taken.2
 exact faithful.isMap updates positive

/-- `UpdateDirectoryMapping` for one slot, as the merge uses it. -/
def setSlot : DirectoryUpdate := fun directory bucketIdx bucketPageId localDepth _ =>
 { directory with
  localDepths := update directory.localDepths bucketIdx localDepth
  bucketPageIds := update directory.bucketPageIds bucketIdx bucketPageId }

theorem hash_table_map_grows_and_shrinks :
 ∃ state : Recorded ℕ ℕ,
  Run (Guarded SplitsRight (ofFunction (step setSlot))) ⟨.new UInt32.ofNat 0 2 1, []⟩
   [.insert 0 10, .insert 1 11, .insert 2 12, .remove 1, .remove 0, .getValue 2,
    .insert 4 13, .remove 4, .insert 4 14] state ∧
  latest state.log 2 = some 12 ∧ latest state.log 1 = none ∧ latest state.log 4 = some 14 ∧
  IsMap setSlot state := by
 have final : (replay (restrict SplitsRight (step setSlot))
  (⟨.new UInt32.ofNat 0 2 1, []⟩ : Recorded ℕ ℕ)
  [.insert 0 10, .insert 1 11, .insert 2 12, .remove 1, .remove 0, .getValue 2,
   .insert 4 13, .remove 4, .insert 4 14]).map
  (fun state => (latest state.log 2, latest state.log 1, latest state.log 4)) =
  some (some 12, none, some 14) := by decide +kernel
 obtain ⟨state, replayed, visible⟩ := Option.map_eq_some_iff.mp final
 rw [Prod.mk.injEq, Prod.mk.injEq] at visible
 have run := Run.of_replay replayed
 exact ⟨state, run, visible.1, visible.2.1, visible.2.2,
  hash_table_map (fun _ _ _ _ _ => rfl) UInt32.ofNat 0 2 (Nat.le_refl 1) run⟩

/-- Two ways in which a table with four slots for one bucket goes wrong: an `Insert` that
returns false hides the key 5, and a split in the upper half leaves the directory. -/
theorem hash_table_map_fails_for_shallow_buckets :
 (∃ state : Recorded ℕ ℕ,
  Run (ofFunction (step setSlot)) ⟨.new UInt32.ofNat 0 3 2, []⟩
   [.insert 0 100, .insert 4 104, .insert 8 108, .insert 1 101, .insert 5 105,
    .insert 9 109, .getValue 5, .insert 17 117] state ∧
  state.log.getLast? = some (.insert 17 117, .done false) ∧
  (.getValue 5, .found (some 105)) ∈ state.log ∧
  latest state.log 5 = some 105 ∧ state.table.getValue 5 = .ok none) ∧
 ∃ state : Recorded ℕ ℕ,
  Run (ofFunction (step setSlot)) ⟨.new UInt32.ofNat 0 3 1, []⟩
   [.insert 0 100, .insert 1 101, .insert 2 102, .insert 4 104] state ∧
  (state.table.directoryOf 5).size = 8 ∧
  state.table.perform setSlot (.insert 5 105) = .error (.outOfRange 9) := by
 constructor
 · have final : (replay (step setSlot) (⟨.new UInt32.ofNat 0 3 2, []⟩ : Recorded ℕ ℕ)
    [.insert 0 100, .insert 4 104, .insert 8 108, .insert 1 101, .insert 5 105,
     .insert 9 109, .getValue 5, .insert 17 117]).map
    (fun state => (state.log.drop 6, latest state.log 5, state.table.getValue 5)) =
    some ([(.getValue 5, .found (some 105)), (.insert 17 117, .done false)], some 105,
     .ok none) := by decide +kernel
   obtain ⟨state, replayed, visible⟩ := Option.map_eq_some_iff.mp final
   rw [Prod.mk.injEq, Prod.mk.injEq] at visible
   obtain ⟨recent, stored, hidden⟩ := visible
   have log : state.log = state.log.take 6 ++
    [(.getValue 5, .found (some 105)), (.insert 17 117, .done false)] := by
    rw [← recent, List.take_append_drop]
   refine ⟨state, Run.of_replay_all replayed, ?_, ?_, stored, hidden⟩
   · rw [log, List.getLast?_append]
     rfl
   · grind
 · have final : (replay (step setSlot) (⟨.new UInt32.ofNat 0 3 1, []⟩ : Recorded ℕ ℕ)
    [.insert 0 100, .insert 1 101, .insert 2 102, .insert 4 104]).map
    (fun state => ((state.table.directoryOf 5).size,
     (state.table.perform setSlot (.insert 5 105)).map fun _ => ())) =
    some (8, .error (.outOfRange 9)) := by decide +kernel
   obtain ⟨state, replayed, visible⟩ := Option.map_eq_some_iff.mp final
   rw [Prod.mk.injEq] at visible
   obtain ⟨size, fault⟩ := visible
   refine ⟨state, Run.of_replay_all replayed, size, ?_⟩
   cases performed : state.table.perform setSlot (.insert 5 105) with
   | error found =>
    rw [performed] at fault
    cases fault
    rfl
   | ok result =>
    rw [performed] at fault
    cases fault

end MyNotes.Cmu15445.DiskExtendibleHashTable
