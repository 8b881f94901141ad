/-
The `SharedPtr` of the notes that shares a counter.

The live variables are named by numbers, and counters and objects by the order in which they
were allocated; a name is not used again for another allocation.  A run stops with a fault
where a null or freed counter is dereferenced or a counter goes below zero.
-/

import MyNotes.Library.Fallible
import MyNotes.Library.LiveVariables
import Mathlib.Data.Finset.Basic

namespace MyNotes.Memory

open Library.Fallible Library.LiveVariables Function List Option Nat AList

structure SharedPtr where
 ptr : Option ℕ
 refCount : Option ℕ
 deriving DecidableEq

namespace SharedPtr

/-- `deleted` and `freed` record every `delete` of an object and of a counter. -/
structure State where
 vars : Variables SharedPtr
 counters : ℕ → ℕ
 nextCounter : ℕ
 freed : List ℕ
 nextObject : ℕ
 deleted : List ℕ

inductive Fault where
 | notLive (v : ℕ)
 | nullCounter
 | freedCounter (c : ℕ)
 | belowZero (c : ℕ)

inductive Operation where
 | construct (v : ℕ)
 | constructNull (v : ℕ)
 | copyConstruct (v other : ℕ)
 | moveConstruct (v other : ℕ)
 | copyAssign (v other : ℕ)
 | moveAssign (v other : ℕ)
 | destroy (v : ℕ)

def start : State := ⟨∅, fun _ => 0, 0, [], 0, []⟩

namespace State

section

variable (state : State)

def fetch (v : ℕ) : Except Fault SharedPtr :=
 match state.vars.lookup v with
 | none => .error (.notLive v)
 | some this => .ok this

/-- The counter that is accessed through a `ref_count`. -/
def deref : Option ℕ → Except Fault ℕ
 | none => .error .nullCounter
 | some c => if c ∈ state.freed then .error (.freedCounter c) else .ok c

/-- `++(*ref_count)`, of an `unsigned int` -/
def increment (refCount : Option ℕ) : Except Fault State :=
 (state.deref refCount).map fun c =>
  { state with counters := update state.counters c ((state.counters c + 1) % 2 ^ 32) }

/-- `if (--(*ref_count) == 0) { delete ptr; delete ref_count; }` -/
def release (this : SharedPtr) : Except Fault State :=
 (state.deref this.refCount).bind fun c =>
  if state.counters c = 0 then .error (.belowZero c)
  else
   let counters := update state.counters c (state.counters c - 1)
   if state.counters c - 1 = 0 then
    .ok { state with
     counters
     deleted := this.ptr.toList ++ state.deleted
     freed := c :: state.freed }
   else .ok { state with counters }

def assign (v : ℕ) (this : SharedPtr) : State :=
 { state with vars := state.vars.insert v this }

/-- A new counter of one, or of zero for a null pointer. -/
def construct (v : ℕ) (p : Option ℕ) : State :=
 { state with
  vars := state.vars.insert v ⟨p, some state.nextCounter⟩
  counters := update state.counters state.nextCounter (if p.isNone then 0 else 1)
  nextCounter := state.nextCounter + 1 }

def copyConstruct (v other : ℕ) : Except Fault State :=
 (state.fetch other).bind fun source =>
  (state.assign v source).increment source.refCount

def moveConstruct (v other : ℕ) : Except Fault State :=
 (state.fetch other).map fun source =>
  (state.assign v source).assign other ⟨none, none⟩

def copyAssign (v other : ℕ) : Except Fault State :=
 if v = other then .ok state
 else
  (state.fetch v).bind fun this =>
   (state.fetch other).bind fun source =>
    (state.release this).bind fun state =>
     (state.assign v source).increment source.refCount

def moveAssign (v other : ℕ) : Except Fault State :=
 if v = other then .ok state
 else
  (state.fetch v).bind fun this =>
   (state.fetch other).bind fun source =>
    (state.release this).map fun state =>
     (state.assign v source).assign other ⟨none, none⟩

def destroy (v : ℕ) : Except Fault State :=
 (state.fetch v).bind fun this =>
  (state.release this).map fun state => { state with vars := state.vars.erase v }

def apply : Operation → Except Fault State
 | .construct v =>
  .ok ({ state with nextObject := state.nextObject + 1 }.construct v (some state.nextObject))
 | .constructNull v => .ok (state.construct v none)
 | .copyConstruct v other => state.copyConstruct v other
 | .moveConstruct v other => state.moveConstruct v other
 | .copyAssign v other => state.copyAssign v other
 | .moveAssign v other => state.moveAssign v other
 | .destroy v => state.destroy v

def useCount (this : SharedPtr) : Except Fault ℕ :=
 (state.deref this.refCount).map state.counters

end

end State

/-! ### What the lifetimes have to be -/

def holders (state : State) (object : ℕ) : ℕ := tally state.vars (·.ptr = some object)

def sharers (state : State) (c : ℕ) : ℕ := tally state.vars (·.refCount = some c)

/-- An object or a counter is deleted once if nothing holds it, and otherwise not yet. -/
structure Managed (state : State) : Prop where
 objects : ∀ object < state.nextObject,
  state.deleted.count object = if holders state object = 0 then 1 else 0
 counters : ∀ c < state.nextCounter,
  state.freed.count c = if sharers state c = 0 then 1 else 0
 useCount : ∀ v this object, state.vars.lookup v = some this → this.ptr = some object →
  state.useCount this = .ok (holders state object)

/-- Throughout the operations the lifetimes are as they have to be. -/
def ManagedThroughout (state : State) : List Operation → Prop
 | [] => Managed state
 | operation :: rest =>
  Managed state ∧ ∃ next, state.apply operation = .ok next ∧ ManagedThroughout next rest

/-- The live variables after an operation that a program can make. -/
def Operation.liveAfter (live : Finset ℕ) : Operation → Option (Finset ℕ)
 | .construct v => if v ∈ live then none else some (insert v live)
 | .constructNull v => if v ∈ live then none else some (insert v live)
 | .copyConstruct v other => if v ∈ live ∨ other ∉ live then none else some (insert v live)
 | .moveConstruct v other => if v ∈ live ∨ other ∉ live then none else some (insert v live)
 | .copyAssign v other => if v ∈ live ∧ other ∈ live then some live else none
 | .moveAssign v other => if v ∈ live ∧ other ∈ live then some live else none
 | .destroy v => if v ∈ live then some (live.erase v) else none

/-- Each variable is constructed before its use and destroyed once. -/
def Complete (live : Finset ℕ) : List Operation → Prop
 | [] => live = ∅
 | operation :: rest => ∃ next, operation.liveAfter live = some next ∧ Complete next rest

/-- The operations that keep the count right: no null pointer, no move, and no sharer more than
an `unsigned int` can count. -/
def Counts (state : State) : Operation → Prop
 | .construct _ => True
 | .constructNull _ => False
 | .copyConstruct _ other => ∀ source c, state.vars.lookup other = some source →
  source.refCount = some c → sharers state c + 1 < 2 ^ 32
 | .moveConstruct _ _ => False
 | .copyAssign v other => v = other ∨ ∀ this source c, state.vars.lookup v = some this →
  state.vars.lookup other = some source → source.refCount = some c →
  this.refCount = some c ∨ sharers state c + 1 < 2 ^ 32
 | .moveAssign v other => v = other
 | .destroy _ => True

def CountsThroughout (state : State) : List Operation → Prop
 | [] => True
 | operation :: rest =>
  Counts state operation ∧ ∀ next, state.apply operation = .ok next →
   CountsThroughout next rest

/-! ### The steps -/

variable {state next : State} {v other c : ℕ} {this source : SharedPtr}

theorem fetch_of_lookup (found : state.vars.lookup v = some this) :
 state.fetch v = .ok this := by
 unfold State.fetch
 rw [found]

theorem fetch_cases (fetched : state.fetch v = .ok this) : state.vars.lookup v = some this := by
 unfold State.fetch at fetched
 split at fetched
 · cases fetched
 · simp_all

theorem deref_of_not_freed (alive : c ∉ state.freed) : state.deref (some c) = .ok c :=
 if_neg alive

theorem deref_cases {refCount : Option ℕ} (accessed : state.deref refCount = .ok c) :
 refCount = some c ∧ c ∉ state.freed := by
 unfold State.deref at accessed
 split at accessed
 · cases accessed
 · split at accessed
   · cases accessed
   · simp_all

def State.incremented (state : State) (c : ℕ) : State :=
 { state with counters := update state.counters c ((state.counters c + 1) % 2 ^ 32) }

def State.released (state : State) (this : SharedPtr) (c : ℕ) : State :=
 { state with
  counters := update state.counters c (state.counters c - 1)
  deleted :=
   if state.counters c - 1 = 0 then this.ptr.toList ++ state.deleted else state.deleted
  freed := if state.counters c - 1 = 0 then c :: state.freed else state.freed }

theorem increment_ok (alive : c ∉ state.freed) :
 state.increment (some c) = .ok (state.incremented c) := by
 unfold State.increment
 rw [deref_of_not_freed alive]
 rfl

theorem increment_cases {refCount : Option ℕ} (done : state.increment refCount = .ok next) :
 ∃ c, refCount = some c ∧ c ∉ state.freed ∧ next = state.incremented c := by
 obtain ⟨c, accessed, isNext⟩ := of_map done
 obtain ⟨isSome, alive⟩ := deref_cases accessed
 exact ⟨c, isSome, alive, isNext.symm⟩

theorem release_ok (isCount : this.refCount = some c) (alive : c ∉ state.freed)
 (positive : 0 < state.counters c) : state.release this = .ok (state.released this c) := by
 unfold State.release State.released
 rw [isCount, deref_of_not_freed alive]
 dsimp only [Except.bind]
 rw [if_neg (ne_of_gt positive)]
 split
 · rfl
 · rfl

theorem release_cases (done : state.release this = .ok next) :
 ∃ c, this.refCount = some c ∧ c ∉ state.freed ∧ 0 < state.counters c ∧
  next = state.released this c := by
 obtain ⟨c, accessed, isNext⟩ := of_bind done
 obtain ⟨isSome, alive⟩ := deref_cases accessed
 have positive : 0 < state.counters c := by
  by_contra zero
  rw [if_pos (Nat.eq_zero_of_not_pos zero)] at isNext
  cases isNext
 rw [release_ok isSome alive positive] at done
 simp_all

theorem destroy_ok (found : state.vars.lookup v = some this) (isCount : this.refCount = some c)
 (alive : c ∉ state.freed) (positive : 0 < state.counters c) :
 state.destroy v = .ok { state.released this c with vars := state.vars.erase v } := by
 unfold State.destroy
 rw [fetch_of_lookup found]
 dsimp only [Except.bind]
 rw [release_ok isCount alive positive]
 rfl

theorem destroy_cases (done : state.destroy v = .ok next) :
 ∃ this c, state.vars.lookup v = some this ∧ this.refCount = some c ∧ c ∉ state.freed ∧
  0 < state.counters c ∧ next = { state.released this c with vars := state.vars.erase v } := by
 obtain ⟨this, fetched, rest⟩ := of_bind done
 obtain ⟨middle, released, isNext⟩ := of_map rest
 obtain ⟨c, isCount, alive, positive, isReleased⟩ := release_cases released
 refine ⟨this, c, fetch_cases fetched, isCount, alive, positive, ?_⟩
 rw [← isNext, isReleased]
 rfl

theorem copyConstruct_ok (found : state.vars.lookup other = some source)
 (isCount : source.refCount = some c) (alive : c ∉ state.freed) :
 state.copyConstruct v other = .ok ((state.assign v source).incremented c) := by
 unfold State.copyConstruct
 rw [fetch_of_lookup found]
 dsimp only [Except.bind]
 rw [isCount]
 exact increment_ok alive

theorem copyConstruct_cases (done : state.copyConstruct v other = .ok next) :
 ∃ source c, state.vars.lookup other = some source ∧ source.refCount = some c ∧
  c ∉ state.freed ∧ next = (state.assign v source).incremented c := by
 obtain ⟨source, fetched, incremented⟩ := of_bind done
 obtain ⟨c, isCount, alive, isNext⟩ := increment_cases incremented
 exact ⟨source, c, fetch_cases fetched, isCount, alive, isNext⟩

theorem moveConstruct_cases (done : state.moveConstruct v other = .ok next) :
 ∃ source, state.vars.lookup other = some source ∧
  next = (state.assign v source).assign other ⟨none, none⟩ := by
 obtain ⟨source, fetched, isNext⟩ := of_map done
 exact ⟨source, fetch_cases fetched, isNext.symm⟩

/-! ### Assignments are a destruction and a construction -/

theorem fetch_erase (different : other ≠ v) (vars : state.vars = next.vars.erase v) :
 state.fetch other = next.fetch other := by
 unfold State.fetch
 rw [vars, lookup_erase_ne different]

theorem release_eq_destroy (different : v ≠ other) (found : state.vars.lookup v = some this)
 (foundOther : state.vars.lookup other = some source)
 (rest : SharedPtr → State → Except Fault State) :
 ((state.release this).bind fun middle => rest source (middle.assign v source)) =
  (state.destroy v).bind fun middle =>
   (middle.fetch other).bind fun source => rest source (middle.assign v source) := by
 unfold State.destroy
 rw [fetch_of_lookup found]
 dsimp only [Except.bind]
 cases released : state.release this with
 | error fault => rfl
 | ok middle =>
  obtain ⟨c, -, -, -, isReleased⟩ := release_cases released
  have vars : middle.vars = state.vars := by
   rw [isReleased]
   rfl
  dsimp only [Except.map]
  rw [fetch_erase different.symm rfl, fetch_of_lookup (vars.symm ▸ foundOther)]
  dsimp only [State.assign]
  rw [insert_erase]

theorem copyAssign_eq (different : v ≠ other) (found : state.vars.lookup v = some this)
 (foundOther : state.vars.lookup other = some source) :
 state.copyAssign v other =
  (state.destroy v).bind fun middle => middle.copyConstruct v other := by
 unfold State.copyAssign
 rw [if_neg different, fetch_of_lookup found, fetch_of_lookup foundOther]
 exact release_eq_destroy different found foundOther fun source state =>
  state.increment source.refCount

theorem moveAssign_eq (different : v ≠ other) (found : state.vars.lookup v = some this)
 (foundOther : state.vars.lookup other = some source) :
 state.moveAssign v other =
  (state.destroy v).bind fun middle => middle.moveConstruct v other := by
 unfold State.moveAssign
 rw [if_neg different, fetch_of_lookup found, fetch_of_lookup foundOther]
 exact release_eq_destroy different found foundOther fun _ state =>
  .ok (state.assign other ⟨none, none⟩)

/-! ### While the counts are right -/

/-- Counter `c` counts object `c`, and is its number of sharers until both are deleted. -/
structure Sound (state : State) (live : Finset ℕ) : Prop where
 live : ∀ v, v ∈ state.vars ↔ v ∈ live
 objects : state.nextObject = state.nextCounter
 deleted : state.deleted = state.freed
 handle : ∀ v this, state.vars.lookup v = some this →
  ∃ c < state.nextCounter, this = ⟨some c, some c⟩
 counted : ∀ c, c ∉ state.freed → state.counters c = sharers state c
 freed : ∀ c, c ∈ state.freed ↔ c < state.nextCounter ∧ sharers state c = 0
 nodup : state.freed.Nodup
 small : ∀ c, sharers state c < 2 ^ 32

variable {live : Finset ℕ}

theorem start_sound : Sound start ∅ where
 live v := iff_of_false (notMem_empty v) (Finset.notMem_empty v)
 objects := rfl
 deleted := rfl
 handle v this found := by
  rw [show start.vars = ∅ from rfl, lookup_empty] at found
  cases found
 counted _ _ := rfl
 freed c := iff_of_false not_mem_nil fun both => Nat.not_lt_zero c both.1
 nodup := nodup_nil
 small _ := Nat.pow_pos (by decide)

theorem sharers_pos (found : state.vars.lookup v = some this) (isCount : this.refCount = some c) :
 0 < sharers state c := tally_pos found isCount

section

variable (sound : Sound state live)
include sound

theorem Sound.alive (found : state.vars.lookup v = some this) (isCount : this.refCount = some c) :
 c ∉ state.freed := by
 intro gone
 have positive := sharers_pos found isCount
 rw [((sound.freed c).mp gone).2] at positive
 exact lt_irrefl 0 positive

theorem Sound.lookup (member : v ∈ live) :
 ∃ c < state.nextCounter, state.vars.lookup v = some ⟨some c, some c⟩ := by
 obtain ⟨this, found⟩ :=
  isSome_iff_exists.mp (lookup_isSome.mpr ((sound.live v).mpr member))
 obtain ⟨c, allocated, isPair⟩ := sound.handle v this found
 exact ⟨c, allocated, isPair ▸ found⟩

theorem Sound.holders_eq (c : ℕ) : holders state c = sharers state c := by
 refine tally_congr fun v this found => ?_
 obtain ⟨_, _, isPair⟩ := sound.handle v this found
 rw [isPair]

theorem Sound.managed : Managed state := by
 have once : ∀ c < state.nextCounter,
  state.freed.count c = if sharers state c = 0 then 1 else 0 := by
  intro c allocated
  split
  · rename_i none
    exact count_eq_one_of_mem sound.nodup ((sound.freed c).mpr ⟨allocated, none⟩)
  · rename_i some
    exact count_eq_zero_of_not_mem fun gone => some ((sound.freed c).mp gone).2
 refine ⟨fun object allocated => ?_, once, fun v this object found isObject => ?_⟩
 · rw [sound.deleted, sound.holders_eq]
   exact once object (sound.objects ▸ allocated)
 · obtain ⟨c, _, isPair⟩ := sound.handle v this found
   rw [isPair] at isObject found ⊢
   cases isObject
   have alive := sound.alive found rfl
   unfold State.useCount
   rw [deref_of_not_freed alive, sound.holders_eq]
   exact congrArg Except.ok (sound.counted object alive)

theorem Sound.unallocated : sharers state state.nextCounter = 0 := by
 refine tally_eq_zero_iff.mpr fun v this found isCount => ?_
 obtain ⟨c, allocated, isPair⟩ := sound.handle v this found
 simp_all

theorem Sound.construct (new : v ∉ live) :
 Sound ({ state with nextObject := state.nextObject + 1 }.construct v
  (some state.nextObject)) (insert v live) := by
 have absent : v ∉ state.vars := fun member => new ((sound.live v).mp member)
 have unallocated := sound.unallocated
 have counts : ∀ c, sharers ({ state with nextObject := state.nextObject + 1 }.construct v
  (some state.nextObject)) c =
  sharers state c + if some state.nextCounter = some c then 1 else 0 := fun c =>
  tally_insert_new (fun this : SharedPtr => this.refCount = some c) absent _
 refine ⟨fun other => ?_, ?_, sound.deleted, fun other this found => ?_, fun c alive => ?_,
  fun c => ?_, sound.nodup, fun c => ?_⟩
 · dsimp only [State.construct]
   rw [mem_insert, Finset.mem_insert, sound.live]
 · exact congrArg (· + 1) sound.objects
 · dsimp only [State.construct] at found ⊢
   rcases lookup_of_insert found with rfl | found
   · exact ⟨state.nextCounter, lt_succ_self _, by rw [sound.objects]⟩
   · obtain ⟨c, allocated, isPair⟩ := sound.handle other this found
     grind
 · rw [counts]
   by_cases isNew : c = state.nextCounter
   · rw [isNew, unallocated, if_pos rfl]
     exact update_self _ _ _
   · rw [if_neg fun same => isNew (some.inj same).symm]
     exact (update_of_ne isNew _ _).trans (sound.counted c alive)
 · rw [counts]
   dsimp only [State.construct]
   rw [sound.freed]
   by_cases isNew : c = state.nextCounter
   · simp_all
   · rw [if_neg fun same => isNew (some.inj same).symm, add_zero]
     exact and_congr_left' ⟨lt_succ_of_lt, fun below => by omega⟩
 · rw [counts]
   by_cases isNew : c = state.nextCounter
   · simp_all
   · rw [if_neg fun same => isNew (some.inj same).symm]
     exact sound.small c

theorem Sound.copyConstruct (new : v ∉ live) (found : state.vars.lookup other = some source)
 (isCount : source.refCount = some c) (room : sharers state c + 1 < 2 ^ 32) :
 ∃ next, state.copyConstruct v other = .ok next ∧ Sound next (insert v live) := by
 have absent : v ∉ state.vars := fun member => new ((sound.live v).mp member)
 have alive := sound.alive found isCount
 have counts : ∀ d, sharers ((state.assign v source).incremented c) d =
  sharers state d + if source.refCount = some d then 1 else 0 := fun d =>
  tally_insert_new (fun this : SharedPtr => this.refCount = some d) absent _
 refine ⟨_, copyConstruct_ok found isCount alive, fun w => ?_, sound.objects, sound.deleted,
  fun w this isThis => ?_, fun d stillAlive => ?_, fun d => ?_, sound.nodup, fun d => ?_⟩
 · dsimp only [State.incremented, State.assign]
   rw [mem_insert, Finset.mem_insert, sound.live]
 · rcases lookup_of_insert isThis with rfl | isThis
   · exact sound.handle other _ found
   · exact sound.handle w this isThis
 · rw [counts, isCount]
   by_cases isC : d = c
   · rw [isC, if_pos rfl]
     refine (update_self _ _ _).trans ?_
     rw [show (state.assign v source).counters c = state.counters c from rfl,
      sound.counted c alive]
     exact mod_eq_of_lt room
   · rw [if_neg fun same => isC (some.inj same).symm]
     exact (update_of_ne isC _ _).trans (sound.counted d stillAlive)
 · rw [counts, isCount]
   dsimp only [State.incremented, State.assign]
   rw [sound.freed]
   by_cases isC : d = c
   · have positive := sharers_pos found isCount
     rw [isC, if_pos rfl]
     exact iff_of_false (fun both => by omega) fun both => succ_ne_zero _ both.2
   · grind
 · rw [counts, isCount]
   by_cases isC : d = c
   · rw [isC, if_pos rfl]
     exact room
   · rw [if_neg fun same => isC (some.inj same).symm]
     exact sound.small d

end

theorem sharers_destroy (found : state.vars.lookup v = some this) (c d : ℕ) :
 sharers { state.released this c with vars := state.vars.erase v } d +
  (if this.refCount = some d then 1 else 0) = sharers state d :=
 tally_erase (fun handle : SharedPtr => handle.refCount = some d) found

theorem Sound.destroy (sound : Sound state live) (member : v ∈ live) :
 ∃ next this, state.destroy v = .ok next ∧ Sound next (live.erase v) ∧
  state.vars.lookup v = some this ∧ next.vars = state.vars.erase v ∧
  ∀ d, sharers next d + (if this.refCount = some d then 1 else 0) = sharers state d := by
 obtain ⟨c, allocated, found⟩ := sound.lookup member
 have alive := sound.alive found rfl
 have counted := sound.counted c alive
 have positive := sharers_pos found rfl
 obtain ⟨next, isNext⟩ : ∃ next, next = ({ state.released ⟨some c, some c⟩ c with
  vars := state.vars.erase v } : State) := ⟨_, rfl⟩
 have counts : ∀ d, sharers next d + (if some c = some d then 1 else 0) = sharers state d := by
  intro d
  rw [isNext]
  exact sharers_destroy found c d
 have done := destroy_ok found rfl alive (by omega)
 have freed : next.freed =
  if state.counters c - 1 = 0 then c :: state.freed else state.freed := by
  rw [isNext]
  rfl
 rw [← isNext] at done
 refine ⟨next, _, done, ⟨fun w => ?_, isNext ▸ sound.objects, ?_, fun w this isThis => ?_,
  fun d stillAlive => ?_, fun d => ?_, ?_, fun d => ?_⟩, found, by rw [isNext], counts⟩
 · rw [isNext]
   rw [mem_erase, Finset.mem_erase, sound.live]
 · rw [isNext]
   dsimp only [State.released]
   rw [sound.deleted]
   rfl
 · rw [isNext] at isThis ⊢
   exact sound.handle w this (lookup_of_erase isThis)
 · have count := counts d
   rw [show next.counters = update state.counters c (state.counters c - 1) by
    rw [isNext]; rfl]
   by_cases isC : d = c
   · grind
   · rw [if_neg fun same => isC (some.inj same).symm, add_zero] at count
     rw [update_of_ne isC, count]
     refine sound.counted d fun gone => stillAlive ?_
     rw [freed]
     split
     · exact mem_cons_of_mem _ gone
     · exact gone
 · have count := counts d
   rw [freed, show next.nextCounter = state.nextCounter by rw [isNext]; rfl]
   by_cases isC : d = c
   · rw [isC, if_pos rfl] at count
     rw [isC]
     split
     · exact iff_of_true mem_cons_self ⟨allocated, by omega⟩
     · exact iff_of_false alive fun both => by omega
   · rw [if_neg fun same => isC (some.inj same).symm, add_zero] at count
     rw [count, ← sound.freed]
     split
     · rw [mem_cons, or_iff_right isC]
     · rfl
 · rw [freed]
   split
   · exact nodup_cons.mpr ⟨alive, sound.nodup⟩
   · exact sound.nodup
 · have small := sound.small d
   have count := counts d
   omega

theorem copyAssign_cases (found : state.vars.lookup v = some this)
 (foundOther : state.vars.lookup other = some source)
 (done : state.copyAssign v other = .ok next) :
 (v = other ∧ next = state) ∨ (v ≠ other ∧ ∃ middle, state.destroy v = .ok middle ∧
  middle.copyConstruct v other = .ok next) := by
 by_cases same : v = other
 · unfold State.copyAssign at done
   simp_all
 · rw [copyAssign_eq same found foundOther] at done
   exact .inr ⟨same, of_bind done⟩

theorem moveAssign_cases (found : state.vars.lookup v = some this)
 (foundOther : state.vars.lookup other = some source)
 (done : state.moveAssign v other = .ok next) :
 (v = other ∧ next = state) ∨ (v ≠ other ∧ ∃ middle, state.destroy v = .ok middle ∧
  middle.moveConstruct v other = .ok next) := by
 by_cases same : v = other
 · unfold State.moveAssign at done
   simp_all
 · rw [moveAssign_eq same found foundOther] at done
   exact .inr ⟨same, of_bind done⟩

/-! ### Once a count is wrong -/

/-- Whatever the counts are: the names of the live variables, and where they may point. -/
structure Tracked (state : State) (live : Finset ℕ) : Prop where
 live : ∀ v, v ∈ state.vars ↔ v ∈ live
 allocated : ∀ v this c, state.vars.lookup v = some this → this.refCount = some c →
  c < state.nextCounter

theorem Sound.tracked (sound : Sound state live) : Tracked state live where
 live := sound.live
 allocated v this c found isCount := by
  obtain ⟨d, allocated, isPair⟩ := sound.handle v this found
  simp_all

section

variable (tracked : Tracked state live)
include tracked

theorem Tracked.assigned (vars : next.vars = state.vars.insert v this)
 (grows : state.nextCounter ≤ next.nextCounter)
 (allocated : ∀ c, this.refCount = some c → c < next.nextCounter) :
 Tracked next (insert v live) where
 live w := by rw [vars, mem_insert, Finset.mem_insert, tracked.live]
 allocated w handle c found isCount := by
  rw [vars] at found
  rcases lookup_of_insert found with rfl | found
  · exact allocated c isCount
  · exact lt_of_lt_of_le (tracked.allocated w handle c found isCount) grows

theorem Tracked.copyConstruct (done : state.copyConstruct v other = .ok next) :
 Tracked next (insert v live) := by
 obtain ⟨source, c, found, isCount, -, isNext⟩ := copyConstruct_cases done
 rw [isNext]
 have first : Tracked (state.assign v source) (insert v live) :=
  tracked.assigned rfl (le_refl _) fun d isD => tracked.allocated other source d found isD
 exact ⟨first.live, first.allocated⟩

theorem Tracked.moveConstruct (member : other ∈ live)
 (done : state.moveConstruct v other = .ok next) : Tracked next (insert v live) := by
 obtain ⟨source, found, isNext⟩ := moveConstruct_cases done
 have first : Tracked (state.assign v source) (insert v live) :=
  tracked.assigned rfl (le_refl _) fun d isD => tracked.allocated other source d found isD
 have second : Tracked next (insert other (insert v live)) :=
  isNext ▸ first.assigned rfl (le_refl _) fun d none => by cases none
 simp_all

theorem Tracked.destroy (done : state.destroy v = .ok next) : Tracked next (live.erase v) := by
 obtain ⟨this, c, -, -, -, -, isNext⟩ := destroy_cases done
 rw [isNext]
 refine ⟨fun w => ?_, fun w handle d found isCount => ?_⟩
 · rw [mem_erase, Finset.mem_erase, tracked.live]
 · exact tracked.allocated w handle d (lookup_of_erase found) isCount

end

/-- A live variable has no counter, or one that is freed or too low. -/
def Doomed (state : State) : Prop :=
 ∃ v this, state.vars.lookup v = some this ∧ (this.refCount = none ∨
  ∃ c, this.refCount = some c ∧ (c ∈ state.freed ∨ state.counters c < sharers state c))

theorem doomed_of_low (c : ℕ) (low : state.counters c < sharers state c) : Doomed state := by
 obtain ⟨v, this, found, isCount⟩ := tally_pos_iff.mp (zero_lt_of_lt low)
 exact ⟨v, this, found, .inr ⟨c, isCount, .inr low⟩⟩

theorem moveConstruct_doomed (done : state.moveConstruct v other = .ok next) : Doomed next := by
 obtain ⟨source, -, isNext⟩ := moveConstruct_cases done
 refine ⟨other, ⟨none, none⟩, ?_, .inl rfl⟩
 rw [isNext]
 exact lookup_insert _

theorem Doomed.construct (doomed : Doomed state) (tracked : Tracked state live) (new : v ∉ live)
 (p : Option ℕ) : Doomed (state.construct v p) := by
 obtain ⟨u, this, found, either⟩ := doomed
 have absent : v ∉ state.vars := fun member => new ((tracked.live v).mp member)
 have different : u ≠ v := fun same =>
  absent (same ▸ lookup_isSome.mp (by rw [found]; rfl))
 refine ⟨u, this, (lookup_insert_ne different).trans found, ?_⟩
 refine either.imp_right fun ⟨c, isCount, wrong⟩ => ⟨c, isCount, wrong.imp_right fun low => ?_⟩
 have old : c ≠ state.nextCounter := Nat.ne_of_lt (tracked.allocated u this c found isCount)
 have more : sharers (state.construct v p) c =
  sharers state c + if some state.nextCounter = some c then 1 else 0 :=
  tally_insert_new (fun handle : SharedPtr => handle.refCount = some c) absent _
 have same : (state.construct v p).counters c = state.counters c :=
  update_of_ne old _ _
 omega

theorem Doomed.copyConstruct (doomed : Doomed state) (absent : v ∉ state.vars)
 (done : state.copyConstruct v other = .ok next) : Doomed next := by
 obtain ⟨source, d, -, isD, -, isNext⟩ := copyConstruct_cases done
 obtain ⟨u, this, found, either⟩ := doomed
 have different : u ≠ v := fun same =>
  absent (same ▸ lookup_isSome.mp (by rw [found]; rfl))
 rw [isNext]
 refine ⟨u, this, (lookup_insert_ne different).trans found, ?_⟩
 refine either.imp_right fun ⟨c, isCount, wrong⟩ => ⟨c, isCount, wrong.imp_right fun low => ?_⟩
 have more : sharers ((state.assign v source).incremented d) c =
  sharers state c + if source.refCount = some c then 1 else 0 :=
  tally_insert_new (fun handle : SharedPtr => handle.refCount = some c) absent source
 rw [more, isD]
 by_cases same : c = d
 · have counted : ((state.assign v source).incremented d).counters d =
    (state.counters d + 1) % 2 ^ 32 := update_self _ _ _
   have wraps := mod_le (state.counters d + 1) (2 ^ 32)
   grind
 · have counted : ((state.assign v source).incremented d).counters c = state.counters c :=
    update_of_ne same _ _
   omega

theorem Doomed.destroy (doomed : Doomed state) (done : state.destroy v = .ok next) :
 Doomed next := by
 obtain ⟨this, d, isThis, isD, alive, positive, isNext⟩ := destroy_cases done
 obtain ⟨u, handle, found, either⟩ := doomed
 have stays : u ≠ v → next.vars.lookup u = some handle := fun different => by
  simp_all
 have freed : ∀ c, c ∈ state.freed → c ∈ next.freed := fun c gone => by
  rw [isNext]
  dsimp only [State.released]
  split
  · exact mem_cons_of_mem _ gone
  · exact gone
 have sameHandle : u = v → handle.refCount = some d := fun same => by
  grind
 rcases either with null | ⟨c, isCount, gone | low⟩
 · refine ⟨u, handle, stays fun same => ?_, .inl null⟩
   rw [sameHandle same] at null
   cases null
 · refine ⟨u, handle, stays fun same => ?_, .inr ⟨c, isCount, .inl (freed c gone)⟩⟩
   simp_all
 · have fewer : sharers next c + (if this.refCount = some c then 1 else 0) = sharers state c := by
    rw [isNext]
    exact sharers_destroy isThis d c
   have counters : next.counters =
    update state.counters d (state.counters d - 1) := by
    rw [isNext]
    rfl
   refine doomed_of_low c ?_
   rw [counters]
   rw [isD] at fewer
   by_cases same : c = d
   · grind
   · grind

/-! ### Runs -/

variable {operation : Operation} {after : Finset ℕ}

theorem Tracked.lookup (tracked : Tracked state live) (member : v ∈ live) :
 ∃ this, state.vars.lookup v = some this :=
 isSome_iff_exists.mp (lookup_isSome.mpr ((tracked.live v).mpr member))

theorem Tracked.step (tracked : Tracked state live)
 (possible : operation.liveAfter live = some after)
 (done : state.apply operation = .ok next) : Tracked next after := by
 cases operation with
 | construct v =>
  obtain ⟨new, isAfter⟩ := ite_none_left_eq_some.mp possible
  cases isAfter
  cases done
  refine tracked.assigned rfl (le_succ _) fun c isNew => ?_
  cases isNew
  exact lt_succ_self _
 | constructNull v =>
  obtain ⟨new, isAfter⟩ := ite_none_left_eq_some.mp possible
  cases isAfter
  cases done
  refine tracked.assigned rfl (le_succ _) fun c isNew => ?_
  cases isNew
  exact lt_succ_self _
 | copyConstruct v other =>
  obtain ⟨names, isAfter⟩ := ite_none_left_eq_some.mp possible
  cases isAfter
  exact tracked.copyConstruct done
 | moveConstruct v other =>
  obtain ⟨names, isAfter⟩ := ite_none_left_eq_some.mp possible
  cases isAfter
  exact tracked.moveConstruct (not_not.mp (not_or.mp names).2) done
 | copyAssign v other =>
  obtain ⟨⟨first, second⟩, isAfter⟩ := ite_none_right_eq_some.mp possible
  cases isAfter
  obtain ⟨this, found⟩ := tracked.lookup first
  obtain ⟨source, foundOther⟩ := tracked.lookup second
  rcases copyAssign_cases found foundOther done with
   ⟨-, isNext⟩ | ⟨-, middle, destroyed, copied⟩
  · exact isNext ▸ tracked
  · rw [← Finset.insert_erase first]
    exact (tracked.destroy destroyed).copyConstruct copied
 | moveAssign v other =>
  obtain ⟨⟨first, second⟩, isAfter⟩ := ite_none_right_eq_some.mp possible
  cases isAfter
  obtain ⟨this, found⟩ := tracked.lookup first
  obtain ⟨source, foundOther⟩ := tracked.lookup second
  rcases moveAssign_cases found foundOther done with
   ⟨-, isNext⟩ | ⟨different, middle, destroyed, moved⟩
  · exact isNext ▸ tracked
  · rw [← Finset.insert_erase first]
    exact (tracked.destroy destroyed).moveConstruct
     (Finset.mem_erase.mpr ⟨different.symm, second⟩) moved
 | destroy v =>
  obtain ⟨member, isAfter⟩ := ite_none_right_eq_some.mp possible
  cases isAfter
  exact tracked.destroy done

theorem Doomed.step (doomed : Doomed state) (tracked : Tracked state live)
 (possible : operation.liveAfter live = some after)
 (done : state.apply operation = .ok next) : Doomed next := by
 cases operation with
 | construct v =>
  obtain ⟨new, -⟩ := ite_none_left_eq_some.mp possible
  cases done
  have same : Doomed { state with nextObject := state.nextObject + 1 } := doomed
  exact same.construct ⟨tracked.live, tracked.allocated⟩ new _
 | constructNull v =>
  obtain ⟨new, -⟩ := ite_none_left_eq_some.mp possible
  cases done
  exact doomed.construct tracked new _
 | copyConstruct v other =>
  obtain ⟨names, -⟩ := ite_none_left_eq_some.mp possible
  exact doomed.copyConstruct (fun member => (not_or.mp names).1 ((tracked.live v).mp member))
   done
 | moveConstruct v other => exact moveConstruct_doomed done
 | copyAssign v other =>
  obtain ⟨⟨first, second⟩, -⟩ := ite_none_right_eq_some.mp possible
  obtain ⟨this, found⟩ := tracked.lookup first
  obtain ⟨source, foundOther⟩ := tracked.lookup second
  rcases copyAssign_cases found foundOther done with
   ⟨-, isNext⟩ | ⟨-, middle, destroyed, copied⟩
  · exact isNext ▸ doomed
  · refine (doomed.destroy destroyed).copyConstruct (fun member => ?_) copied
    exact (Finset.mem_erase.mp (((tracked.destroy destroyed).live v).mp member)).1 rfl
 | moveAssign v other =>
  obtain ⟨⟨first, second⟩, -⟩ := ite_none_right_eq_some.mp possible
  obtain ⟨this, found⟩ := tracked.lookup first
  obtain ⟨source, foundOther⟩ := tracked.lookup second
  rcases moveAssign_cases found foundOther done with ⟨-, isNext⟩ | ⟨-, middle, -, moved⟩
  · exact isNext ▸ doomed
  · exact moveConstruct_doomed moved
 | destroy v => exact doomed.destroy done

theorem Doomed.not_complete (doomed : Doomed state) (tracked : Tracked state live)
 (operations : List Operation) (complete : Complete live operations) :
 ¬ ManagedThroughout state operations := by
 induction operations generalizing state live with
 | nil =>
  intro _
  obtain ⟨v, this, found, -⟩ := doomed
  have member := (tracked.live v).mp (lookup_isSome.mp (by rw [found]; rfl))
  rw [show live = ∅ from complete] at member
  exact Finset.notMem_empty v member
 | cons first rest ih =>
  intro ⟨_, next, done, managed⟩
  obtain ⟨after, possible, complete⟩ := complete
  exact ih (doomed.step tracked possible done) (tracked.step possible done) complete managed

theorem Sound.copyConstruct_doomed (sound : Sound state live) (absent : v ∉ state.vars)
 (found : state.vars.lookup other = some source) (isCount : source.refCount = some c)
 (tooMany : 2 ^ 32 ≤ sharers state c + 1) (done : state.copyConstruct v other = .ok next) :
 Doomed next := by
 have alive := sound.alive found isCount
 have small := sound.small c
 rw [copyConstruct_ok found isCount alive] at done
 cases done
 have more : sharers ((state.assign v source).incremented c) c =
  sharers state c + if source.refCount = some c then 1 else 0 :=
  tally_insert_new (fun handle : SharedPtr => handle.refCount = some c) absent source
 have counted : ((state.assign v source).incremented c).counters c =
  (state.counters c + 1) % 2 ^ 32 := update_self _ _ _
 have wraps : state.counters c + 1 = 2 ^ 32 := by
  rw [sound.counted c alive]
  omega
 rw [isCount, if_pos rfl] at more
 rw [wraps, mod_self] at counted
 refine doomed_of_low c ?_
 rw [counted, more]
 exact succ_pos _

theorem constructNull_doomed (absent : v ∉ state.vars) : Doomed (state.construct v none) := by
 refine doomed_of_low state.nextCounter ?_
 have more : sharers (state.construct v none) state.nextCounter =
  sharers state state.nextCounter + _ :=
  tally_insert_new (fun handle : SharedPtr => handle.refCount = some state.nextCounter) absent _
 have zero : (state.construct v none).counters state.nextCounter = 0 :=
  update_self _ _ _
 simp_all

section

variable (sound : Sound state live)
include sound

theorem Sound.copyAssign (first : v ∈ live) (second : other ∈ live) (different : v ≠ other) :
 (Counts state (.copyAssign v other) →
  ∃ next, state.copyAssign v other = .ok next ∧ Sound next live) ∧
  (¬ Counts state (.copyAssign v other) →
   ∀ next, state.copyAssign v other = .ok next → Doomed next) := by
 obtain ⟨c, allocated, foundOther⟩ := sound.lookup second
 obtain ⟨middle, this, destroyed, kept, found, vars, counts⟩ := sound.destroy first
 have count := counts c
 have stillFound : middle.vars.lookup other = some ⟨some c, some c⟩ := by
  rw [vars, lookup_erase_ne (Ne.symm different)]
  exact foundOther
 have splits : state.copyAssign v other = middle.copyConstruct v other := by
  refine (copyAssign_eq different found foundOther).trans ?_
  rw [destroyed]
  rfl
 rw [splits]
 constructor
 · intro either
   have room : sharers middle c + 1 < 2 ^ 32 := by
    have small := sound.small c
    rcases (either.resolve_left different) this _ c found foundOther rfl with shared | room
    · rw [if_pos shared] at count
      omega
    · omega
   have copied := kept.copyConstruct (Finset.notMem_erase v live) stillFound rfl room
   simp_all
 · intro wrong next done
   refine kept.copyConstruct_doomed (fun member => ?_) stillFound rfl ?_ done
   · simp_all
   · by_contra room
     refine wrong (.inr fun handle source d isHandle isSource isCount => ?_)
     rw [foundOther] at isSource
     rw [found] at isHandle
     cases isSource
     cases isHandle
     cases isCount
     by_cases shared : this.refCount = some c
     · exact .inl shared
     · rw [if_neg shared] at count
       exact .inr (by omega)

theorem Sound.step (possible : operation.liveAfter live = some after) :
 (Counts state operation → ∃ next, state.apply operation = .ok next ∧ Sound next after) ∧
  (¬ Counts state operation → ∀ next, state.apply operation = .ok next → Doomed next) := by
 cases operation with
 | construct v =>
  obtain ⟨new, isAfter⟩ := ite_none_left_eq_some.mp possible
  cases isAfter
  exact ⟨fun _ => ⟨_, rfl, sound.construct new⟩, fun wrong => absurd trivial wrong⟩
 | constructNull v =>
  obtain ⟨new, isAfter⟩ := ite_none_left_eq_some.mp possible
  refine ⟨fun wrong => wrong.elim, fun _ next done => ?_⟩
  cases done
  exact constructNull_doomed fun member => new ((sound.live v).mp member)
 | copyConstruct v other =>
  obtain ⟨names, isAfter⟩ := ite_none_left_eq_some.mp possible
  cases isAfter
  obtain ⟨new, present⟩ := not_or.mp names
  obtain ⟨c, allocated, found⟩ := sound.lookup (not_not.mp present)
  constructor
  · intro room
    exact sound.copyConstruct new found rfl (room _ c found rfl)
  · intro wrong next done
    refine sound.copyConstruct_doomed (fun member => new ((sound.live v).mp member)) found rfl
     (Nat.le_of_not_lt fun room => wrong fun again d isFound isCount => ?_) done
    simp_all
 | moveConstruct v other => exact ⟨fun wrong => wrong.elim, fun _ _ => moveConstruct_doomed⟩
 | copyAssign v other =>
  obtain ⟨⟨first, second⟩, isAfter⟩ := ite_none_right_eq_some.mp possible
  cases isAfter
  by_cases same : v = other
  · exact ⟨fun _ => ⟨state, if_pos same, sound⟩, fun wrong => absurd (.inl same) wrong⟩
  · exact sound.copyAssign first second same
 | moveAssign v other =>
  obtain ⟨⟨first, second⟩, isAfter⟩ := ite_none_right_eq_some.mp possible
  cases isAfter
  constructor
  · intro same
    refine ⟨state, ?_, sound⟩
    exact if_pos same
  · intro different next done
    obtain ⟨this, found⟩ := sound.tracked.lookup first
    obtain ⟨source, foundOther⟩ := sound.tracked.lookup second
    rcases moveAssign_cases found foundOther done with ⟨same, -⟩ | ⟨-, middle, -, moved⟩
    · exact absurd same different
    · exact moveConstruct_doomed moved
 | destroy v =>
  obtain ⟨member, isAfter⟩ := ite_none_right_eq_some.mp possible
  cases isAfter
  obtain ⟨next, _, done, kept, -⟩ := sound.destroy member
  exact ⟨fun _ => ⟨next, done, kept⟩, fun wrong => absurd trivial wrong⟩

theorem Sound.managedThroughout (operations : List Operation) (complete : Complete live operations)
 (counts : CountsThroughout state operations) : ManagedThroughout state operations := by
 induction operations generalizing state live with
 | nil => exact sound.managed
 | cons first rest ih =>
  obtain ⟨after, possible, complete⟩ := complete
  obtain ⟨next, done, kept⟩ := (sound.step possible).1 counts.1
  exact ⟨sound.managed, next, done, ih kept complete (counts.2 next done)⟩

theorem Sound.countsThroughout (operations : List Operation) (complete : Complete live operations)
 (managed : ManagedThroughout state operations) : CountsThroughout state operations := by
 induction operations generalizing state live with
 | nil => trivial
 | cons first rest ih =>
  obtain ⟨after, possible, complete⟩ := complete
  obtain ⟨_, next, done, managed⟩ := managed
  have counts : Counts state first := by
   by_contra wrong
   have doomed := (sound.step possible).2 wrong next done
   exact doomed.not_complete (sound.tracked.step possible done) rest complete managed
  refine ⟨counts, fun again isNext => ?_⟩
  obtain ⟨other, otherDone, kept⟩ := (sound.step possible).1 counts
  grind

end

/-- The lifetimes are right throughout if and only if no pointer is null, nothing is moved and
no counter overflows. -/
theorem managedThroughout_iff (operations : List Operation) (complete : Complete ∅ operations) :
 ManagedThroughout start operations ↔ CountsThroughout start operations :=
 ⟨start_sound.countsThroughout operations complete,
  start_sound.managedThroughout operations complete⟩

theorem managedThroughout_iff_copies :
 ManagedThroughout start [.construct 0, .copyConstruct 1 0, .construct 2, .copyAssign 2 1,
  .destroy 0, .destroy 1, .destroy 2] ↔
  CountsThroughout start [.construct 0, .copyConstruct 1 0, .construct 2, .copyAssign 2 1,
   .destroy 0, .destroy 1, .destroy 2] :=
 managedThroughout_iff _
  ⟨_, rfl, _, rfl, _, rfl, _, rfl, _, rfl, _, rfl, _, rfl, by unfold Complete; decide⟩

/-- An empty pointer is destroyed: its counter of zero goes below zero. -/
theorem null_goes_below_zero :
 ¬ ManagedThroughout start [.constructNull 0, .destroy 0] ∧
  ∃ state, start.apply (.constructNull 0) = .ok state ∧
   state.apply (.destroy 0) = .error (.belowZero 0) := by
 refine ⟨?_, _, rfl, rfl⟩
 intro ⟨_, next, done, _, last, destroyed, _⟩
 cases done
 cases destroyed

end SharedPtr

end MyNotes.Memory
