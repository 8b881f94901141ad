/-
The `SharedPtr` and `WeakPtr` of the notes that share a control block.

The live variables are named by numbers, control blocks by the order in which they were
allocated, and an object by its block.  A `WeakPtr` has no copy constructor and no assignment
of its own, so a copy of it leaves the counts alone.  A run stops with a fault where a freed
block is accessed.
-/

import MyNotes.Library.Fallible
import MyNotes.Library.LiveVariables

namespace MyNotes.Memory.ControlBlock

open Library.Fallible Library.LiveVariables Function List Option Nat Except

structure Block where
 ptr : Option ℕ
 refCount : ℕ
 weakCount : ℕ

inductive Handle where
 | sharedPtr (ptr : Option ℕ) (cb : ℕ)
 | weakPtr (cb : ℕ)

/-- `freed` and `destroyed` record every `delete` of a control block and of an object. -/
structure State where
 vars : Variables Handle
 blocks : ℕ → Block
 nextBlock : ℕ
 freed : List ℕ
 destroyed : List ℕ

inductive Fault where
 | notLive (v : ℕ)
 | freedBlock (cb : ℕ)

inductive Operation where
 | construct (v : ℕ)
 | constructNull (v : ℕ)
 | copyShared (v other : ℕ)
 | assignShared (v other : ℕ)
 | constructWeak (v other : ℕ)
 | copyWeak (v other : ℕ)
 | assignWeak (v other : ℕ)
 | destroy (v : ℕ)

def start : State := ⟨∅, fun _ => ⟨none, 0, 0⟩, 0, [], []⟩

/-- `--n` of an `unsigned int` -/
def decrement (n : ℕ) : ℕ := (n + (2 ^ 32 - 1)) % 2 ^ 32

namespace State

section

variable (state : State)

def fetchShared (v : ℕ) : Except Fault (Option ℕ × ℕ) :=
 match state.vars.lookup v with
 | some (.sharedPtr ptr cb) => .ok (ptr, cb)
 | _ => .error (.notLive v)

def fetchWeak (v : ℕ) : Except Fault ℕ :=
 match state.vars.lookup v with
 | some (.weakPtr cb) => .ok cb
 | _ => .error (.notLive v)

def access (cb : ℕ) : Except Fault Block :=
 if cb ∈ state.freed then .error (.freedBlock cb) else .ok (state.blocks cb)

def write (cb : ℕ) (block : Block) : State :=
 { state with blocks := update state.blocks cb block }

/-- `delete this` -/
def delete (cb : ℕ) : State :=
 { state with
  freed := cb :: state.freed
  destroyed := (state.blocks cb).ptr.toList ++ state.destroyed }

def addRef (cb : ℕ) : Except Fault State :=
 (state.access cb).map fun block =>
  state.write cb { block with refCount := (block.refCount + 1) % 2 ^ 32 }

def removeRef (cb : ℕ) : Except Fault State :=
 (state.access cb).map fun block =>
  let block := { block with refCount := decrement block.refCount }
  if block.refCount = 0 then
   let block := { block with weakCount := decrement block.weakCount }
   if block.weakCount = 0 then (state.write cb block).delete cb else state.write cb block
  else state.write cb block

end

def hasRefs (block : Block) : Bool := block.refCount > 0

section

variable (state : State)

def addWeak (cb : ℕ) : Except Fault State :=
 (state.access cb).map fun block =>
  state.write cb { block with weakCount := (block.weakCount + 1) % 2 ^ 32 }

def removeWeak (cb : ℕ) : Except Fault State :=
 (state.access cb).map fun block =>
  let block := { block with weakCount := decrement block.weakCount }
  if block.weakCount = 0 ∧ block.refCount = 0 then (state.write cb block).delete cb
  else state.write cb block

def assign (v : ℕ) (handle : Handle) : State :=
 { state with vars := state.vars.insert v handle }

/-- `cb_(new ControlBlock<T>(ptr))` and `cb_->addRef()` -/
def construct (v : ℕ) (ptr : Option ℕ) : Except Fault State :=
 let cb := state.nextBlock
 let state := (state.write cb ⟨ptr, 0, 1⟩).assign v (.sharedPtr ptr cb)
 { state with nextBlock := cb + 1 }.addRef cb

def copyShared (v other : ℕ) : Except Fault State :=
 (state.fetchShared other).bind fun (ptr, cb) => (state.assign v (.sharedPtr ptr cb)).addRef cb

def assignShared (v other : ℕ) : Except Fault State :=
 if v = other then .ok state
 else
  (state.fetchShared v).bind fun this =>
   (state.fetchShared other).bind fun (ptr, cb) =>
    (state.removeRef this.2).bind fun state => (state.assign v (.sharedPtr ptr cb)).addRef cb

def constructWeak (v other : ℕ) : Except Fault State :=
 (state.fetchShared other).bind fun (_, cb) => (state.assign v (.weakPtr cb)).addWeak cb

/-- The implicit copy, and with a live `v` the implicit assignment. -/
def copyWeak (v other : ℕ) : Except Fault State :=
 (state.fetchWeak other).map fun cb => state.assign v (.weakPtr cb)

def removeHandle : Handle → Except Fault State
 | .sharedPtr _ cb => state.removeRef cb
 | .weakPtr cb => state.removeWeak cb

def destroy (v : ℕ) : Except Fault State :=
 match state.vars.lookup v with
 | none => .error (.notLive v)
 | some handle =>
  (state.removeHandle handle).map fun state => { state with vars := state.vars.erase v }

def apply : Operation → Except Fault State
 | .construct v => state.construct v (some state.nextBlock)
 | .constructNull v => state.construct v none
 | .copyShared v other => state.copyShared v other
 | .assignShared v other => state.assignShared v other
 | .constructWeak v other => state.constructWeak v other
 | .copyWeak v other => state.copyWeak v other
 | .assignWeak v other => state.copyWeak v other
 | .destroy v => state.destroy v

def expired (cb : ℕ) : Except Fault Bool :=
 (state.access cb).map fun block => !hasRefs block

end

end State

/-! ### What weak ownership has to be -/

def Handle.sharedBlock : Handle → Option ℕ
 | .sharedPtr _ cb => some cb
 | .weakPtr _ => none

def Handle.weakBlock : Handle → Option ℕ
 | .sharedPtr _ _ => none
 | .weakPtr cb => some cb

def Handle.object : Handle → Option ℕ
 | .sharedPtr ptr _ => ptr
 | .weakPtr _ => none

def holders (state : State) (object : ℕ) : ℕ := tally state.vars (·.object = some object)

def sharers (state : State) (cb : ℕ) : ℕ := tally state.vars (·.sharedBlock = some cb)

def watchers (state : State) (cb : ℕ) : ℕ := tally state.vars (·.weakBlock = some cb)

/-- An object is destroyed once if no `SharedPtr` holds it, a block is freed once if there is no
pointer to it at all, and otherwise they are not; `expired` tells of the object. -/
structure Managed (state : State) : Prop where
 objects : ∀ cb < state.nextBlock, ∀ object, (state.blocks cb).ptr = some object →
  state.destroyed.count object = if holders state object = 0 then 1 else 0
 blocks : ∀ cb < state.nextBlock,
  state.freed.count cb = if sharers state cb = 0 ∧ watchers state cb = 0 then 1 else 0
 expired : ∀ v cb object, state.vars.lookup v = some (.weakPtr cb) →
  (state.blocks cb).ptr = some object →
  state.expired cb = .ok (decide (object ∈ state.destroyed))

def ManagedThroughout (state : State) : List Operation → Prop
 | [] => Managed state
 | operation :: rest =>
  Managed state ∧ ∃ next, state.apply operation = .ok next ∧ ManagedThroughout next rest

def Possible (state : State) : Operation → Prop
 | .construct v => v ∉ state.vars
 | .constructNull v => v ∉ state.vars
 | .copyShared v other => v ∉ state.vars ∧
  ∃ ptr cb, state.vars.lookup other = some (.sharedPtr ptr cb)
 | .assignShared v other => (∃ ptr cb, state.vars.lookup v = some (.sharedPtr ptr cb)) ∧
  ∃ ptr cb, state.vars.lookup other = some (.sharedPtr ptr cb)
 | .constructWeak v other => v ∉ state.vars ∧
  ∃ ptr cb, state.vars.lookup other = some (.sharedPtr ptr cb)
 | .copyWeak v other => v ∉ state.vars ∧ ∃ cb, state.vars.lookup other = some (.weakPtr cb)
 | .assignWeak v other => (∃ cb, state.vars.lookup v = some (.weakPtr cb)) ∧
  ∃ cb, state.vars.lookup other = some (.weakPtr cb)
 | .destroy v => v ∈ state.vars

/-- No control block gets more sharers than an `unsigned int` can count. -/
def PossibleThroughout (state : State) : List Operation → Prop
 | [] => True
 | operation :: rest => Possible state operation ∧ ∀ next, state.apply operation = .ok next →
  (∀ cb, sharers next cb < 2 ^ 32) ∧ PossibleThroughout next rest

/-- When the last `SharedPtr` of a block goes, no `WeakPtr` is left to the block of an object,
and the weak count is right. -/
def LastGoes (state : State) (cb : ℕ) : Prop :=
 sharers state cb = 1 →
  ((state.blocks cb).weakCount = 1 ↔ watchers state cb = 0) ∧
   ((state.blocks cb).ptr ≠ none → watchers state cb = 0)

/-- The handles that go do so when the weak count of their block is right. -/
def Balanced (state : State) : Operation → Prop
 | .assignShared v other => v = other ∨
  ∀ ptr cb, state.vars.lookup v = some (.sharedPtr ptr cb) → LastGoes state cb
 | .assignWeak v other => ∀ cb, state.vars.lookup v = some (.weakPtr cb) →
  state.vars.lookup other = some (.weakPtr cb) ∨
   ¬ (sharers state cb = 0 ∧ watchers state cb = 1)
 | .destroy v =>
  (∀ ptr cb, state.vars.lookup v = some (.sharedPtr ptr cb) → LastGoes state cb) ∧
   ∀ cb, state.vars.lookup v = some (.weakPtr cb) → sharers state cb = 0 →
    ((state.blocks cb).weakCount = 1 ↔ watchers state cb = 1)
 | _ => True

def BalancedThroughout (state : State) : List Operation → Prop
 | [] => True
 | operation :: rest => Balanced state operation ∧ ∀ next, state.apply operation = .ok next →
  BalancedThroughout next rest

/-! ### The counts of a block -/

theorem decrement_pos {n : ℕ} (positive : 0 < n) (small : n < 2 ^ 32) : decrement n = n - 1 := by
 unfold decrement
 omega

theorem decrement_eq_zero {n : ℕ} (small : n < 2 ^ 32) : decrement n = 0 ↔ n = 1 := by
 unfold decrement
 omega

theorem decrement_lt (n : ℕ) : decrement n < 2 ^ 32 := mod_lt _ (by decide)

variable {state next : State} {v other cb : ℕ} {ptr : Option ℕ}

theorem access_ok (alive : cb ∉ state.freed) : state.access cb = .ok (state.blocks cb) :=
 if_neg alive

theorem addRef_ok (alive : cb ∉ state.freed) :
 state.addRef cb = .ok (state.write cb
  { state.blocks cb with refCount := ((state.blocks cb).refCount + 1) % 2 ^ 32 }) := by
 unfold State.addRef
 rw [access_ok alive]
 rfl

theorem fetchShared_of_lookup (found : state.vars.lookup v = some (.sharedPtr ptr cb)) :
 state.fetchShared v = .ok (ptr, cb) := by
 unfold State.fetchShared
 rw [found]

theorem fetchWeak_of_lookup (found : state.vars.lookup v = some (.weakPtr cb)) :
 state.fetchWeak v = .ok cb := by
 unfold State.fetchWeak
 rw [found]

def Handle.block : Handle → ℕ
 | .sharedPtr _ cb => cb
 | .weakPtr cb => cb

/-- The handle points to an allocated block, with the object of the block. -/
def Placed (state : State) : Handle → Prop
 | .sharedPtr ptr cb => cb < state.nextBlock ∧ ptr = (state.blocks cb).ptr
 | .weakPtr cb => cb < state.nextBlock

/-- The reference count of a block that is not freed is its number of sharers, and only a block
without an object is there without one. -/
structure Sound (state : State) : Prop where
 placed : ∀ v handle, state.vars.lookup v = some handle → Placed state handle
 counted : ∀ cb, cb ∉ state.freed → (state.blocks cb).refCount = sharers state cb
 small : ∀ cb, sharers state cb < 2 ^ 32
 weakSmall : ∀ cb, (state.blocks cb).weakCount < 2 ^ 32
 freed : ∀ cb, cb ∈ state.freed ↔
  cb < state.nextBlock ∧ sharers state cb = 0 ∧ watchers state cb = 0
 nodup : state.freed.Nodup
 owns : ∀ cb, (state.blocks cb).ptr = none ∨ (state.blocks cb).ptr = some cb
 kept : ∀ cb < state.nextBlock, (state.blocks cb).ptr ≠ none → cb ∉ state.freed →
  0 < sharers state cb
 destroyed : state.destroyed = state.freed.filter fun cb => (state.blocks cb).ptr.isSome

theorem start_sound : Sound start where
 placed v handle found := by
  rw [show start.vars = ∅ from rfl, AList.lookup_empty] at found
  cases found
 counted _ _ := rfl
 small _ := Nat.pow_pos (by decide)
 weakSmall _ := Nat.pow_pos (by decide)
 freed cb := iff_of_false not_mem_nil fun both => Nat.not_lt_zero cb both.1
 nodup := nodup_nil
 owns _ := .inl rfl
 kept cb allocated := absurd allocated (Nat.not_lt_zero cb)
 destroyed := rfl

variable {handle : Handle} {block : Block}

theorem block_of_sharedBlock (shared : handle.sharedBlock = some cb) : handle.block = cb := by
 cases handle with
 | sharedPtr ptr other => exact some.inj shared
 | weakPtr other => cases shared

theorem block_of_weakBlock (weak : handle.weakBlock = some cb) : handle.block = cb := by
 cases handle with
 | sharedPtr ptr other => cases weak
 | weakPtr other => exact some.inj weak

theorem Placed.lt (placed : Placed state handle) : handle.block < state.nextBlock := by
 cases handle with
 | sharedPtr ptr cb => exact placed.1
 | weakPtr cb => exact placed

theorem sharers_pos (found : state.vars.lookup v = some (.sharedPtr ptr cb)) :
 0 < sharers state cb := tally_pos_iff.mpr ⟨v, _, found, rfl⟩

theorem watchers_pos (found : state.vars.lookup v = some (.weakPtr cb)) :
 0 < watchers state cb := tally_pos_iff.mpr ⟨v, _, found, rfl⟩

theorem count_pos (found : state.vars.lookup v = some handle) :
 0 < sharers state handle.block + watchers state handle.block := by
 cases handle with
 | sharedPtr ptr cb => exact Nat.add_pos_left (sharers_pos found) _
 | weakPtr cb => exact Nat.add_pos_right _ (watchers_pos found)

theorem Sound.alive (sound : Sound state) (found : state.vars.lookup v = some handle) :
 handle.block ∉ state.freed := by
 intro gone
 have positive := count_pos found
 have none := (sound.freed _).mp gone
 omega

theorem Sound.holders_eq (sound : Sound state) (isPtr : (state.blocks cb).ptr = some cb) :
 holders state cb = sharers state cb := by
 refine tally_congr fun v handle found => ?_
 have placed := sound.placed v handle found
 cases handle with
 | weakPtr other => exact iff_of_false nofun nofun
 | sharedPtr ptr other =>
  dsimp only [Handle.object, Handle.sharedBlock]
  rw [placed.2]
  constructor
  · intro same
    rcases sound.owns other with none | own
    · rw [none] at same
      cases same
    · exact own.symm.trans same
  · simp_all

theorem Sound.managed (sound : Sound state) : Managed state := by
 have once : ∀ cb, state.freed.count cb = if cb ∈ state.freed then 1 else 0 := by
  intro cb
  split
  · rename_i gone
    exact count_eq_one_of_mem sound.nodup gone
  · grind
 have isOwn : ∀ cb object, (state.blocks cb).ptr = some object → object = cb := by
  intro cb object isPtr
  rcases sound.owns cb with none | own
  · rw [none] at isPtr
    cases isPtr
  · exact some.inj (isPtr.symm.trans own)
 refine ⟨fun cb allocated object isPtr => ?_, fun cb allocated => ?_,
  fun v cb object found isPtr => ?_⟩
 · cases isOwn cb object isPtr
   rw [sound.destroyed, count_filter (by rw [isPtr]; rfl), once, sound.holders_eq isPtr]
   refine if_congr ?_ rfl rfl
   constructor
   · exact fun gone => ((sound.freed cb).mp gone).2.1
   · intro none
     by_contra alive
     have positive := sound.kept cb allocated (by rw [isPtr]; exact nofun) alive
     exact ne_of_gt positive none
 · rw [once]
   exact if_congr ((sound.freed cb).trans (and_iff_right allocated)) rfl rfl
 · have alive : cb ∉ state.freed := sound.alive found
   have positive := sound.kept cb (sound.placed v _ found) (by rw [isPtr]; exact nofun) alive
   have present : object ∉ state.destroyed := by
    rw [isOwn cb object isPtr, sound.destroyed]
    exact fun gone => alive (mem_filter.mp gone).1
   unfold State.expired
   rw [access_ok alive, decide_eq_false present]
   refine congrArg ok ?_
   unfold State.hasRefs
   dsimp only
   rw [sound.counted cb alive, decide_eq_true positive]
   rfl

/-! ### A handle comes -/

theorem sharers_insert (vars : next.vars = state.vars.insert v handle) (absent : v ∉ state.vars)
 (cb : ℕ) :
 sharers next cb = sharers state cb + if handle.sharedBlock = some cb then 1 else 0 := by
 unfold sharers
 rw [vars]
 exact tally_insert_new (fun handle : Handle => handle.sharedBlock = some cb) absent handle

theorem watchers_insert (vars : next.vars = state.vars.insert v handle) (absent : v ∉ state.vars)
 (cb : ℕ) :
 watchers next cb = watchers state cb + if handle.weakBlock = some cb then 1 else 0 := by
 unfold watchers
 rw [vars]
 exact tally_insert_new (fun handle : Handle => handle.weakBlock = some cb) absent handle

theorem Placed.of_blocks (placed : Placed state handle) (grows : state.nextBlock ≤ next.nextBlock)
 (ptrs : ∀ cb < state.nextBlock, (next.blocks cb).ptr = (state.blocks cb).ptr) :
 Placed next handle := by
 cases handle with
 | sharedPtr ptr cb =>
  exact ⟨lt_of_lt_of_le placed.1 grows, placed.2.trans (ptrs cb placed.1).symm⟩
 | weakPtr cb => exact lt_of_lt_of_le placed grows

theorem write_ptr (same : block.ptr = (state.blocks cb).ptr) (other : ℕ) :
 ((state.write cb block).blocks other).ptr = (state.blocks other).ptr := by
 dsimp only [State.write]
 by_cases isBlock : other = cb
 · rw [isBlock, update_self, same]
 · rw [update_of_ne isBlock]

theorem Sound.inserted (sound : Sound state) (absent : v ∉ state.vars)
 (placed : Placed state handle) (alive : handle.block ∉ state.freed)
 (ptr : block.ptr = (state.blocks handle.block).ptr)
 (refCount : block.refCount = sharers state handle.block +
  if handle.sharedBlock = some handle.block then 1 else 0) (weakCount : block.weakCount < 2 ^ 32)
 (small : ∀ cb, sharers ((state.assign v handle).write handle.block block) cb < 2 ^ 32) :
 Sound ((state.assign v handle).write handle.block block) := by
 obtain ⟨next, isNext⟩ : ∃ next, next = (state.assign v handle).write handle.block block :=
  ⟨_, rfl⟩
 have ptrs : ∀ cb, (next.blocks cb).ptr = (state.blocks cb).ptr := by
  rw [isNext]
  exact write_ptr ptr
 have vars : next.vars = state.vars.insert v handle := isNext ▸ rfl
 have sharersMore := sharers_insert vars absent
 have watchersMore := watchers_insert vars absent
 have blocks : next.blocks = update state.blocks handle.block block := isNext ▸ rfl
 have nextBlock : next.nextBlock = state.nextBlock := isNext ▸ rfl
 have freed : next.freed = state.freed := isNext ▸ rfl
 have destroyed : next.destroyed = state.destroyed := isNext ▸ rfl
 rw [← isNext] at small ⊢
 refine ⟨fun w other found => ?_, fun cb stays => ?_, small, fun cb => ?_, fun cb => ?_,
  freed ▸ sound.nodup, fun cb => ptrs cb ▸ sound.owns cb,
  fun cb allocated isPtr stays => ?_, ?_⟩
 · refine Placed.of_blocks ?_ (Nat.le_of_eq nextBlock.symm) fun cb _ => ptrs cb
   rw [vars] at found
   rcases lookup_of_insert found with rfl | found
   · exact placed
   · exact sound.placed w other found
 · rw [sharersMore, blocks]
   by_cases isBlock : cb = handle.block
   · rw [isBlock, update_self]
     exact refCount
   · rw [update_of_ne isBlock, sound.counted cb (freed ▸ stays),
      if_neg fun shared => isBlock (block_of_sharedBlock shared).symm, Nat.add_zero]
 · rw [blocks]
   by_cases isBlock : cb = handle.block
   · rw [isBlock, update_self]
     exact weakCount
   · rw [update_of_ne isBlock]
     exact sound.weakSmall cb
 · rw [freed, sound.freed, nextBlock, sharersMore, watchersMore]
   by_cases isBlock : handle.block = cb
   · rw [isBlock] at alive
     have none := (not_congr (sound.freed cb)).mp alive
     have allocated : cb < state.nextBlock := isBlock ▸ placed.lt
     exact iff_of_false none fun both => none ⟨allocated, by omega, by omega⟩
   · rw [if_neg fun shared => isBlock (block_of_sharedBlock shared),
      if_neg fun weak => isBlock (block_of_weakBlock weak)]
     rfl
 · rw [nextBlock] at allocated
   rw [ptrs] at isPtr
   rw [freed] at stays
   rw [sharersMore]
   exact Nat.add_pos_left (sound.kept cb allocated isPtr stays) _
 · rw [destroyed, freed, sound.destroyed]
   simp only [ptrs]

theorem copyShared_ok (found : state.vars.lookup other = some (.sharedPtr ptr cb))
 (alive : cb ∉ state.freed) :
 state.copyShared v other = .ok ((state.assign v (.sharedPtr ptr cb)).write cb
  { state.blocks cb with refCount := ((state.blocks cb).refCount + 1) % 2 ^ 32 }) := by
 unfold State.copyShared
 rw [fetchShared_of_lookup found]
 dsimp only [Except.bind]
 rw [addRef_ok]
 · rfl
 · exact alive

theorem Sound.copyShared (sound : Sound state) (absent : v ∉ state.vars)
 (found : state.vars.lookup other = some (.sharedPtr ptr cb))
 (done : state.copyShared v other = .ok next) (small : ∀ cb, sharers next cb < 2 ^ 32) :
 Sound next := by
 have alive : cb ∉ state.freed := sound.alive found
 rw [copyShared_ok found alive] at done
 cases done
 refine sound.inserted absent (sound.placed other _ found) alive rfl ?_ (sound.weakSmall cb) small
 have isShared : (Handle.sharedPtr ptr cb).sharedBlock = some cb := rfl
 have more := small cb
 rw [sharers_insert rfl absent, if_pos isShared] at more
 rw [sound.counted cb alive, mod_eq_of_lt more]
 exact congrArg (sharers state cb + ·) (if_pos isShared).symm

theorem constructWeak_ok (found : state.vars.lookup other = some (.sharedPtr ptr cb))
 (alive : cb ∉ state.freed) :
 state.constructWeak v other = .ok ((state.assign v (.weakPtr cb)).write cb
  { state.blocks cb with weakCount := ((state.blocks cb).weakCount + 1) % 2 ^ 32 }) := by
 unfold State.constructWeak State.addWeak
 rw [fetchShared_of_lookup found]
 dsimp only [Except.bind]
 rw [access_ok (show cb ∉ (state.assign v (.weakPtr cb)).freed from alive)]
 rfl

theorem Sound.constructWeak (sound : Sound state) (absent : v ∉ state.vars)
 (found : state.vars.lookup other = some (.sharedPtr ptr cb))
 (done : state.constructWeak v other = .ok next) (small : ∀ cb, sharers next cb < 2 ^ 32) :
 Sound next := by
 have alive : cb ∉ state.freed := sound.alive found
 have placed := sound.placed other _ found
 rw [constructWeak_ok found alive] at done
 cases done
 exact sound.inserted absent (show Placed state (.weakPtr cb) from placed.1) alive rfl
  (sound.counted cb alive) (mod_lt _ (by decide)) small

theorem copyWeak_ok (found : state.vars.lookup other = some (.weakPtr cb)) :
 state.copyWeak v other = .ok ((state.assign v (.weakPtr cb)).write cb (state.blocks cb)) := by
 unfold State.copyWeak
 rw [fetchWeak_of_lookup found]
 refine congrArg ok ?_
 unfold State.write State.assign
 rw [update_eq_self]

theorem Sound.copyWeak (sound : Sound state) (absent : v ∉ state.vars)
 (found : state.vars.lookup other = some (.weakPtr cb))
 (done : state.copyWeak v other = .ok next) (small : ∀ cb, sharers next cb < 2 ^ 32) :
 Sound next := by
 have alive : cb ∉ state.freed := sound.alive found
 rw [copyWeak_ok found] at done
 cases done
 exact sound.inserted absent (sound.placed other _ found) alive rfl (sound.counted cb alive)
  (sound.weakSmall cb) small

def State.constructed (state : State) (v : ℕ) (ptr : Option ℕ) : State :=
 { state with
  vars := state.vars.insert v (.sharedPtr ptr state.nextBlock)
  blocks := update state.blocks state.nextBlock ⟨ptr, 1, 1⟩
  nextBlock := state.nextBlock + 1 }

theorem Sound.unallocated (sound : Sound state) : state.nextBlock ∉ state.freed ∧
 sharers state state.nextBlock = 0 ∧ watchers state state.nextBlock = 0 := by
 refine ⟨fun gone => lt_irrefl _ ((sound.freed _).mp gone).1, ?_, ?_⟩
 · refine tally_eq_zero_iff.mpr fun v handle found shared => ?_
   have below := (sound.placed v handle found).lt
   rw [block_of_sharedBlock shared] at below
   exact lt_irrefl _ below
 · refine tally_eq_zero_iff.mpr fun v handle found weak => ?_
   have below := (sound.placed v handle found).lt
   rw [block_of_weakBlock weak] at below
   exact lt_irrefl _ below

theorem construct_ok (alive : state.nextBlock ∉ state.freed) (v : ℕ) (ptr : Option ℕ) :
 state.construct v ptr = .ok (state.constructed v ptr) := by
 unfold State.construct
 rw [addRef_ok]
 · refine congrArg ok ?_
   dsimp only [State.write, State.assign]
   rw [update_self, update_idem]
   rfl
 · exact alive

theorem Sound.construct (sound : Sound state) (absent : v ∉ state.vars) (ptr : Option ℕ)
 (own : ptr = none ∨ ptr = some state.nextBlock) : Sound (state.constructed v ptr) := by
 obtain ⟨next, isNext⟩ : ∃ next, next = state.constructed v ptr := ⟨_, rfl⟩
 obtain ⟨alive, noSharer, noWatcher⟩ := sound.unallocated
 have vars : next.vars = state.vars.insert v (.sharedPtr ptr state.nextBlock) := isNext ▸ rfl
 have sharersMore : ∀ cb, sharers next cb =
  sharers state cb + if some state.nextBlock = some cb then 1 else 0 :=
  sharers_insert vars absent
 have watchersMore : ∀ cb, watchers next cb = watchers state cb := fun cb =>
  (watchers_insert vars absent cb).trans (congrArg (watchers state cb + ·) (if_neg nofun))
 have blocks : next.blocks = update state.blocks state.nextBlock ⟨ptr, 1, 1⟩ :=
  isNext ▸ rfl
 have nextBlock : next.nextBlock = state.nextBlock + 1 := isNext ▸ rfl
 have freed : next.freed = state.freed := isNext ▸ rfl
 have destroyed : next.destroyed = state.destroyed := isNext ▸ rfl
 have others : ∀ cb, cb ≠ state.nextBlock → next.blocks cb = state.blocks cb := fun cb old => by
  rw [blocks]
  exact update_of_ne old _ _
 have itself : next.blocks state.nextBlock = ⟨ptr, 1, 1⟩ := by
  rw [blocks]
  exact update_self _ _ _
 have notSome : ∀ cb, cb ≠ state.nextBlock → ¬ some state.nextBlock = some cb :=
  fun cb old same => old (some.inj same).symm
 rw [← isNext]
 refine ⟨fun w handle found => ?_, fun cb stays => ?_, fun cb => ?_, fun cb => ?_, fun cb => ?_,
  freed ▸ sound.nodup, fun cb => ?_, fun cb allocated isPtr stays => ?_, ?_⟩
 · rw [vars] at found
   rcases lookup_of_insert found with rfl | found
   · exact ⟨by omega, by rw [itself]⟩
   · refine (sound.placed w handle found).of_blocks (by omega) fun cb below => ?_
     rw [others cb (Nat.ne_of_lt below)]
 · rw [sharersMore]
   by_cases isNew : cb = state.nextBlock
   · rw [isNew, itself, noSharer, if_pos rfl]
   · rw [others cb isNew, if_neg (notSome cb isNew)]
     exact sound.counted cb (freed ▸ stays)
 · rw [sharersMore]
   by_cases isNew : cb = state.nextBlock
   · rw [isNew, noSharer, if_pos rfl]
     decide
   · rw [if_neg (notSome cb isNew)]
     exact sound.small cb
 · by_cases isNew : cb = state.nextBlock
   · rw [isNew, itself]
     exact Nat.one_lt_two_pow (by decide)
   · rw [others cb isNew]
     exact sound.weakSmall cb
 · rw [freed, sound.freed, sharersMore, watchersMore, nextBlock]
   by_cases isNew : cb = state.nextBlock
   · simp_all
   · rw [if_neg (notSome cb isNew), Nat.add_zero]
     exact and_congr_left' ⟨Nat.lt_succ_of_lt, fun below => by omega⟩
 · by_cases isNew : cb = state.nextBlock
   · rw [isNew, itself]
     exact own
   · rw [others cb isNew]
     exact sound.owns cb
 · rw [sharersMore]
   by_cases isNew : cb = state.nextBlock
   · simp_all
   · rw [others cb isNew] at isPtr
     exact Nat.add_pos_left (sound.kept cb (by omega) isPtr (freed ▸ stays)) _
 · rw [destroyed, freed, sound.destroyed]
   refine filter_congr fun cb gone => ?_
   grind

/-! ### A handle goes -/

theorem sharers_erase (vars : next.vars = state.vars.erase v)
 (found : state.vars.lookup v = some handle) (cb : ℕ) :
 sharers next cb + (if handle.sharedBlock = some cb then 1 else 0) = sharers state cb := by
 unfold sharers
 rw [vars]
 exact tally_erase (fun handle : Handle => handle.sharedBlock = some cb) found

theorem watchers_erase (vars : next.vars = state.vars.erase v)
 (found : state.vars.lookup v = some handle) (cb : ℕ) :
 watchers next cb + (if handle.weakBlock = some cb then 1 else 0) = watchers state cb := by
 unfold watchers
 rw [vars]
 exact tally_erase (fun handle : Handle => handle.weakBlock = some cb) found

/-- The counts of the block `cb` have been written, and the block freed or not. -/
def State.settled (state : State) (cb : ℕ) (block : Block) (frees : Bool) : State :=
 { state with
  blocks := update state.blocks cb block
  freed := if frees then cb :: state.freed else state.freed
  destroyed := if frees then block.ptr.toList ++ state.destroyed else state.destroyed }

/-- The state once a handle to the block `cb` has gone. -/
def State.removed (state : State) (v cb : ℕ) (block : Block) (frees : Bool) : State :=
 { state.settled cb block frees with vars := state.vars.erase v }

section Removed

variable {block : Block} {frees : Bool}

theorem removed_block (cb : ℕ) : (state.removed v cb block frees).blocks cb = block :=
 update_self _ _ _

variable {d : ℕ}

theorem removed_other (different : d ≠ cb) :
 (state.removed v cb block frees).blocks d = state.blocks d :=
 update_of_ne different _ _

theorem removed_ptr (ptr : block.ptr = (state.blocks cb).ptr) (d : ℕ) :
 ((state.removed v cb block frees).blocks d).ptr = (state.blocks d).ptr := by
 by_cases isBlock : d = cb
 · rw [isBlock, removed_block, ptr]
 · rw [removed_other isBlock]

theorem removed_counts (found : state.vars.lookup v = some handle) (different : d ≠ handle.block) :
 sharers (state.removed v handle.block block frees) d = sharers state d ∧
  watchers (state.removed v handle.block block frees) d = watchers state d := by
 have sharersLess :=
  @sharers_erase state (state.removed v handle.block block frees) v _ rfl found d
 have watchersLess :=
  @watchers_erase state (state.removed v handle.block block frees) v _ rfl found d
 rw [if_neg fun shared => different (block_of_sharedBlock shared).symm] at sharersLess
 rw [if_neg fun weak => different (block_of_weakBlock weak).symm] at watchersLess
 exact ⟨sharersLess, watchersLess⟩

theorem removed_stays (stays : d ∉ (state.removed v cb block frees).freed) :
 d ∉ state.freed ∧ (d = cb → frees = false) := by
 cases frees with
 | false => exact ⟨stays, fun _ => rfl⟩
 | true =>
  refine ⟨fun gone => stays (mem_cons_of_mem _ gone), fun isBlock => ?_⟩
  rw [isBlock] at stays
  exact absurd mem_cons_self stays

theorem Sound.removed_freed (sound : Sound state) (found : state.vars.lookup v = some handle)
 (right : frees = true ↔ sharers (state.removed v handle.block block frees) handle.block = 0 ∧
  watchers (state.removed v handle.block block frees) handle.block = 0) (d : ℕ) :
 d ∈ (state.removed v handle.block block frees).freed ↔ d < state.nextBlock ∧
  sharers (state.removed v handle.block block frees) d = 0 ∧
  watchers (state.removed v handle.block block frees) d = 0 := by
 by_cases isBlock : d = handle.block
 · rw [isBlock]
   cases frees with
   | true =>
    exact iff_of_true mem_cons_self ⟨(sound.placed v handle found).lt, right.mp rfl⟩
   | false =>
    exact iff_of_false (sound.alive found) fun both => Bool.false_ne_true (right.mpr both.2)
 · rw [(removed_counts found isBlock).1, (removed_counts found isBlock).2, ← sound.freed]
   cases frees with
   | true => exact mem_cons.trans (or_iff_right isBlock)
   | false => rfl

theorem Sound.removed_destroyed (sound : Sound state) (ptr : block.ptr = (state.blocks cb).ptr) :
 (state.removed v cb block frees).destroyed = (state.removed v cb block frees).freed.filter
  fun d => ((state.removed v cb block frees).blocks d).ptr.isSome := by
 simp only [removed_ptr ptr]
 cases frees with
 | false => exact sound.destroyed
 | true =>
  change block.ptr.toList ++ state.destroyed = List.filter _ (cb :: state.freed)
  rw [sound.destroyed, ptr]
  rcases sound.owns cb with none | own
  · rw [filter_cons_of_neg (by rw [none]; exact Bool.false_ne_true), none]
    rfl
  · rw [filter_cons_of_pos (by rw [own]; rfl), own]
    rfl

theorem Sound.removed (sound : Sound state) (found : state.vars.lookup v = some handle)
 (ptr : block.ptr = (state.blocks handle.block).ptr)
 (refCount : frees = false →
  block.refCount = sharers (state.removed v handle.block block frees) handle.block)
 (weakCount : block.weakCount < 2 ^ 32)
 (right : frees = true ↔ sharers (state.removed v handle.block block frees) handle.block = 0 ∧
  watchers (state.removed v handle.block block frees) handle.block = 0)
 (object : block.ptr ≠ none → frees = false →
  0 < sharers (state.removed v handle.block block frees) handle.block) :
 Sound (state.removed v handle.block block frees) where
 placed w other isOther :=
  (sound.placed w other (lookup_of_erase isOther)).of_blocks (le_refl _) fun d _ =>
   removed_ptr ptr d
 counted d stays := by
  obtain ⟨alive, notFrees⟩ := removed_stays stays
  by_cases isBlock : d = handle.block
  · rw [isBlock, removed_block]
    exact refCount (notFrees isBlock)
  · rw [removed_other isBlock, (removed_counts found isBlock).1]
    exact sound.counted d alive
 small d := by
  have small := sound.small d
  have less := @sharers_erase state (state.removed v handle.block block frees) v _ rfl found d
  omega
 weakSmall d := by
  by_cases isBlock : d = handle.block
  · rw [isBlock, removed_block]
    exact weakCount
  · rw [removed_other isBlock]
    exact sound.weakSmall d
 freed := sound.removed_freed found right
 nodup := by
  cases frees with
  | true => exact nodup_cons.mpr ⟨sound.alive found, sound.nodup⟩
  | false => exact sound.nodup
 owns d := by
  rw [removed_ptr ptr]
  exact sound.owns d
 kept d below isPtr stays := by
  obtain ⟨alive, notFrees⟩ := removed_stays stays
  by_cases isBlock : d = handle.block
  · rw [isBlock, removed_block] at isPtr
    simp_all
  · rw [removed_ptr ptr] at isPtr
    rw [(removed_counts found isBlock).1]
    exact sound.kept d below isPtr alive
 destroyed := sound.removed_destroyed ptr

end Removed

theorem delete_eq (cb : ℕ) (block : Block) :
 (state.write cb block).delete cb = state.settled cb block true := by
 unfold State.delete State.settled State.write
 dsimp only
 rw [update_self]
 rfl

theorem write_eq (cb : ℕ) (block : Block) :
 state.write cb block = state.settled cb block false := rfl

variable {frees : Bool}

theorem destroy_ok (found : state.vars.lookup v = some handle)
 (done : state.removeHandle handle = .ok (state.settled cb block frees)) :
 state.destroy v = .ok (state.removed v cb block frees) := by
 unfold State.destroy
 rw [found]
 dsimp only
 rw [done]
 rfl

theorem Sound.removeRef (sound : Sound state)
 (found : state.vars.lookup v = some (.sharedPtr ptr cb)) :
 ∃ block frees, state.removeRef cb = .ok (state.settled cb block frees) ∧
  block.ptr = (state.blocks cb).ptr ∧ block.refCount + 1 = sharers state cb ∧
  block.weakCount < 2 ^ 32 ∧
  (frees = true ↔ sharers state cb = 1 ∧ (state.blocks cb).weakCount = 1) := by
 have alive : cb ∉ state.freed := sound.alive found
 have less : decrement (state.blocks cb).refCount + 1 = sharers state cb := by
  have positive := sharers_pos found
  rw [sound.counted cb alive, decrement_pos positive (sound.small cb)]
  omega
 have weakZero := decrement_eq_zero (sound.weakSmall cb)
 have weakSmall := decrement_lt (state.blocks cb).weakCount
 unfold State.removeRef
 rw [access_ok alive]
 dsimp only [Except.map]
 by_cases last : decrement (state.blocks cb).refCount = 0
 · rw [if_pos last]
   by_cases freesIt : decrement (state.blocks cb).weakCount = 0
   · rw [if_pos freesIt, delete_eq]
     grind
   · rw [if_neg freesIt, write_eq]
     grind
 · rw [if_neg last, write_eq]
   exact ⟨_, false, rfl, rfl, less, sound.weakSmall cb,
    iff_of_false Bool.false_ne_true fun both => last (by omega)⟩

theorem Sound.removeWeak (sound : Sound state)
 (found : state.vars.lookup v = some (.weakPtr cb)) :
 ∃ block frees, state.removeWeak cb = .ok (state.settled cb block frees) ∧
  block.ptr = (state.blocks cb).ptr ∧ block.refCount = sharers state cb ∧
  block.weakCount < 2 ^ 32 ∧
  (frees = true ↔ sharers state cb = 0 ∧ (state.blocks cb).weakCount = 1) := by
 have alive : cb ∉ state.freed := sound.alive found
 have counted := sound.counted cb alive
 have weakZero := decrement_eq_zero (sound.weakSmall cb)
 have weakSmall := decrement_lt (state.blocks cb).weakCount
 unfold State.removeWeak
 rw [access_ok alive]
 dsimp only [Except.map]
 by_cases freesIt : decrement (state.blocks cb).weakCount = 0 ∧ (state.blocks cb).refCount = 0
 · rw [if_pos freesIt, delete_eq]
   grind
 · rw [if_neg freesIt, write_eq]
   grind

theorem sharers_removed_shared (found : state.vars.lookup v = some (.sharedPtr ptr cb))
 (block : Block) (frees : Bool) :
 sharers (state.removed v cb block frees) cb + 1 = sharers state cb ∧
  watchers (state.removed v cb block frees) cb = watchers state cb := by
 have sharersLess := @sharers_erase state (state.removed v cb block frees) v _ rfl found cb
 have watchersLess := @watchers_erase state (state.removed v cb block frees) v _ rfl found cb
 rw [if_pos (show (Handle.sharedPtr ptr cb).sharedBlock = some cb from rfl)] at sharersLess
 rw [if_neg (show ¬ (Handle.sharedPtr ptr cb).weakBlock = some cb from nofun)] at watchersLess
 exact ⟨sharersLess, watchersLess⟩

theorem sharers_removed_weak (found : state.vars.lookup v = some (.weakPtr cb)) (block : Block)
 (frees : Bool) :
 sharers (state.removed v cb block frees) cb = sharers state cb ∧
  watchers (state.removed v cb block frees) cb + 1 = watchers state cb := by
 have sharersLess := @sharers_erase state (state.removed v cb block frees) v _ rfl found cb
 have watchersLess := @watchers_erase state (state.removed v cb block frees) v _ rfl found cb
 rw [if_neg (show ¬ (Handle.weakPtr cb).sharedBlock = some cb from nofun)] at sharersLess
 rw [if_pos (show (Handle.weakPtr cb).weakBlock = some cb from rfl)] at watchersLess
 exact ⟨sharersLess, watchersLess⟩

theorem Sound.destroyShared (sound : Sound state)
 (found : state.vars.lookup v = some (.sharedPtr ptr cb)) (lastGoes : LastGoes state cb)
 (samePtr : block.ptr = (state.blocks cb).ptr) (refCount : block.refCount + 1 = sharers state cb)
 (weakCount : block.weakCount < 2 ^ 32)
 (isFrees : frees = true ↔ sharers state cb = 1 ∧ (state.blocks cb).weakCount = 1) :
 Sound (state.removed v cb block frees) := by
 obtain ⟨fewer, same⟩ := sharers_removed_shared found block frees
 refine sound.removed found samePtr (fun _ => ?_) weakCount ?_ fun object stays => ?_
 · dsimp only [Handle.block]
   omega
 · dsimp only [Handle.block]
   rw [isFrees, same]
   constructor
   · intro ⟨one, weak⟩
     exact ⟨by omega, (lastGoes one).1.mp weak⟩
   · intro ⟨noSharer, noWatcher⟩
     have one : sharers state cb = 1 := by omega
     exact ⟨one, (lastGoes one).1.mpr noWatcher⟩
 · dsimp only [Handle.block]
   by_contra none
   have one : sharers state cb = 1 := by omega
   have noWatcher := (lastGoes one).2 (samePtr ▸ object)
   exact Bool.false_ne_true (stays.symm.trans
    (isFrees.mpr ⟨one, (lastGoes one).1.mpr noWatcher⟩))

theorem Sound.destroyWeak (sound : Sound state) (found : state.vars.lookup v = some (.weakPtr cb))
 (balanced : sharers state cb = 0 → ((state.blocks cb).weakCount = 1 ↔ watchers state cb = 1))
 (samePtr : block.ptr = (state.blocks cb).ptr) (refCount : block.refCount = sharers state cb)
 (weakCount : block.weakCount < 2 ^ 32)
 (isFrees : frees = true ↔ sharers state cb = 0 ∧ (state.blocks cb).weakCount = 1) :
 Sound (state.removed v cb block frees) := by
 obtain ⟨same, fewer⟩ := sharers_removed_weak found block frees
 refine sound.removed found samePtr (fun _ => ?_) weakCount ?_ fun object stays => ?_
 · dsimp only [Handle.block]
   rw [same]
   exact refCount
 · dsimp only [Handle.block]
   grind
 · dsimp only [Handle.block]
   rw [same]
   exact sound.kept cb (sound.placed v _ found) (samePtr ▸ object) (sound.alive found)

/-! ### What goes wrong otherwise -/

theorem Sound.sharedBlock_of_object (sound : Sound state)
 (found : state.vars.lookup v = some handle) (object : handle.object = some cb) :
 handle.sharedBlock = some cb := by
 have placed := sound.placed v handle found
 cases handle with
 | weakPtr other => cases object
 | sharedPtr ptr other =>
  have isPtr : (state.blocks other).ptr = some cb := placed.2.symm.trans object
  rcases sound.owns other with none | own
  · rw [none] at isPtr
    cases isPtr
  · exact own.symm.trans isPtr

theorem frees_iff (managed : Managed next) (alive : cb ∉ state.freed)
 (allocated : cb < next.nextBlock)
 (freed : next.freed = if frees then cb :: state.freed else state.freed) :
 frees = true ↔ sharers next cb = 0 ∧ watchers next cb = 0 := by
 have count := managed.blocks cb allocated
 rw [freed] at count
 cases frees with
 | true =>
  grind
 | false =>
  grind

theorem Sound.lastGoes (sound : Sound state)
 (found : state.vars.lookup v = some (.sharedPtr ptr cb)) (managed : Managed next)
 (isFrees : frees = true ↔ sharers state cb = 1 ∧ (state.blocks cb).weakCount = 1)
 (freed : next.freed = (state.removed v cb block frees).freed)
 (destroyed : next.destroyed = (state.removed v cb block frees).destroyed)
 (nextBlock : next.nextBlock = state.nextBlock)
 (ptrs : (next.blocks cb).ptr = (state.blocks cb).ptr)
 (handles : ∀ w handle, next.vars.lookup w = some handle →
  ∃ u, state.vars.lookup u = some handle) (fewer : sharers next cb + 1 = sharers state cb)
 (same : watchers next cb = watchers state cb) : LastGoes state cb := by
 intro one
 have alive : cb ∉ state.freed := sound.alive found
 have allocated : cb < next.nextBlock := nextBlock ▸ (sound.placed v _ found).1
 have none : sharers next cb = 0 := by omega
 have freesIff : frees = true ↔ watchers state cb = 0 := by
  rw [frees_iff managed alive allocated freed, same]
  exact and_iff_right none
 refine ⟨?_, fun object => ?_⟩
 · simp_all
 · rw [← freesIff]
   by_contra stays
   have own : (state.blocks cb).ptr = some cb := (sound.owns cb).resolve_left object
   have notYet : next.destroyed.count cb = 0 := by
    rw [destroyed]
    dsimp only [State.removed, State.settled]
    rw [if_neg stays, sound.destroyed]
    exact count_eq_zero_of_not_mem fun gone => alive (mem_filter.mp gone).1
   have noHolder : holders next cb = 0 := by
    refine tally_eq_zero_iff.mpr fun w handle isHandle isObject => ?_
    obtain ⟨u, old⟩ := handles w handle isHandle
    have shared := sound.sharedBlock_of_object old isObject
    exact ne_of_gt (tally_pos_iff.mpr ⟨w, handle, isHandle, shared⟩) none
   have count := managed.objects cb allocated cb (ptrs.trans own)
   simp_all

/-! ### Assignments -/

theorem fetchShared_erase (different : other ≠ v) (vars : state.vars = next.vars.erase v) :
 state.fetchShared other = next.fetchShared other := by
 unfold State.fetchShared
 rw [vars, AList.lookup_erase_ne different]

theorem assignShared_eq {otherPtr : Option ℕ} {otherBlock : ℕ} (different : v ≠ other)
 (found : state.vars.lookup v = some (.sharedPtr ptr cb))
 (foundOther : state.vars.lookup other = some (.sharedPtr otherPtr otherBlock))
 (removed : state.removeRef cb = .ok (state.settled cb block frees)) :
 state.assignShared v other = (state.removed v cb block frees).copyShared v other := by
 unfold State.assignShared State.copyShared
 rw [if_neg different, fetchShared_of_lookup found, fetchShared_of_lookup foundOther,
  fetchShared_erase different.symm rfl, fetchShared_of_lookup foundOther]
 dsimp only [Except.bind]
 rw [removed]
 dsimp only [State.assign, State.removed]
 rw [insert_erase]
 rfl

section AssignWeak

variable {otherBlock : ℕ}

theorem sharers_assignWeak (found : state.vars.lookup v = some (.weakPtr cb)) (d : ℕ) :
 sharers (state.assign v (.weakPtr otherBlock)) d = sharers state d := by
 have change := tally_insert (fun handle : Handle => handle.sharedBlock = some d) found
  (.weakPtr otherBlock)
 rw [if_neg nofun, if_neg nofun] at change
 exact change

theorem watchers_assignWeak (found : state.vars.lookup v = some (.weakPtr cb)) (d : ℕ) :
 watchers (state.assign v (.weakPtr otherBlock)) d + (if cb = d then 1 else 0) =
  watchers state d + (if otherBlock = d then 1 else 0) := by
 have change := tally_insert (fun handle : Handle => handle.weakBlock = some d) found
  (.weakPtr otherBlock)
 dsimp only [Handle.weakBlock] at change
 simp only [some_inj] at change
 exact change

variable (sound : Sound state) (found : state.vars.lookup v = some (.weakPtr cb))
 (foundOther : state.vars.lookup other = some (.weakPtr otherBlock))

include sound found foundOther in
theorem Sound.assignWeak
 (balanced : cb = otherBlock ∨ ¬ (sharers state cb = 0 ∧ watchers state cb = 1)) :
 Sound (state.assign v (.weakPtr otherBlock)) where
 placed w handle isHandle := by
  rcases lookup_of_insert isHandle with rfl | old
  · exact sound.placed other _ foundOther
  · exact sound.placed w handle old
 counted d stays := by
  rw [sharers_assignWeak found]
  exact sound.counted d stays
 small d := by
  rw [sharers_assignWeak found]
  exact sound.small d
 weakSmall := sound.weakSmall
 freed d := by
  have alive : cb ∉ state.freed := sound.alive found
  have otherAlive : otherBlock ∉ state.freed := sound.alive foundOther
  have change := @watchers_assignWeak state v cb otherBlock found d
  change d ∈ state.freed ↔ d < state.nextBlock ∧ _
  rw [sharers_assignWeak found, sound.freed]
  by_cases leaves : cb = d
  · rw [leaves] at alive balanced
    have some := (not_congr (sound.freed d)).mp alive
    rw [if_pos leaves] at change
    refine iff_of_false some fun both => ?_
    rcases balanced with same | balanced
    · rw [if_pos same.symm] at change
      omega
    · split at change <;> omega
  · rw [if_neg leaves] at change
    by_cases enters : otherBlock = d
    · rw [enters] at otherAlive
      have some := (not_congr (sound.freed d)).mp otherAlive
      rw [if_pos enters] at change
      exact iff_of_false some fun both => by omega
    · simp_all
 nodup := sound.nodup
 owns := sound.owns
 kept d below isPtr stays := by
  rw [sharers_assignWeak found]
  exact sound.kept d below isPtr stays
 destroyed := sound.destroyed

include sound found in
theorem Sound.balanced_of_assignWeak (managed : Managed (state.assign v (.weakPtr otherBlock))) :
 cb = otherBlock ∨ ¬ (sharers state cb = 0 ∧ watchers state cb = 1) := by
 by_contra wrong
 obtain ⟨different, last⟩ := not_or.mp wrong
 obtain ⟨noSharer, one⟩ := not_not.mp last
 have change := @watchers_assignWeak state v cb otherBlock found cb
 rw [if_pos rfl, if_neg (Ne.symm different)] at change
 have alive : cb ∉ state.freed := sound.alive found
 have count := managed.blocks cb (sound.placed v _ found)
 rw [if_pos ⟨(sharers_assignWeak found cb).trans noSharer, by omega⟩,
  show (state.assign v (.weakPtr otherBlock)).freed = state.freed from rfl,
  count_eq_zero_of_not_mem alive] at count
 cases count

end AssignWeak

/-! ### Runs -/

/-- The operation returns, and leaves a sound state if and only if the lifetimes are right. -/
def Settles (state : State) (operation : Operation) : Prop :=
 ∃ next, state.apply operation = .ok next ∧ ((∀ cb, sharers next cb < 2 ^ 32) →
  (Balanced state operation → Sound next) ∧ (Managed next → Balanced state operation))

section

variable (sound : Sound state)
include sound

theorem Sound.assignShared_settles (possible : Possible state (.assignShared v other)) :
 Settles state (.assignShared v other) := by
 obtain ⟨⟨ptr, cb, found⟩, otherPtr, otherBlock, foundOther⟩ := possible
 by_cases same : v = other
 · exact ⟨state, if_pos same, fun _ => ⟨fun _ => sound, fun _ => .inl same⟩⟩
 obtain ⟨block, frees, removed, samePtr, refCount, weakCount, isFrees⟩ := sound.removeRef found
 have stillFound : (state.removed v cb block frees).vars.lookup other =
  some (.sharedPtr otherPtr otherBlock) :=
  (AList.lookup_erase_ne (Ne.symm same)).trans foundOther
 obtain ⟨fewer, sameWatchers⟩ := sharers_removed_shared found block frees
 -- A block that both variables share keeps a sharer.
 have twice : cb = otherBlock → sharers state cb ≠ 1 := by
  intro isBlock one
  have positive := sharers_pos stillFound
  rw [← isBlock] at positive
  omega
 have alive : otherBlock ∉ (state.removed v cb block frees).freed := by
  have old : otherBlock ∉ state.freed := sound.alive foundOther
  dsimp only [State.removed, State.settled]
  split
  · rename_i freesIt
    intro gone
    rcases mem_cons.mp gone with isBlock | before
    · exact twice isBlock.symm (isFrees.mp freesIt).1
    · exact old before
  · exact old
 have done : state.apply (.assignShared v other) = _ :=
  (assignShared_eq same found foundOther removed).trans (copyShared_ok stillFound alive)
 have absent : v ∉ (state.removed v cb block frees).vars := by
  dsimp only [State.removed]
  rw [AList.mem_erase]
  exact fun both => both.1 rfl
 refine ⟨_, done, fun small => ⟨fun balanced => ?_, fun managed => ?_⟩⟩
 · have lastGoes := balanced.resolve_left same ptr cb found
   have middle := sound.destroyShared found lastGoes samePtr refCount weakCount isFrees
   exact middle.copyShared absent stillFound (copyShared_ok stillFound alive) small
 · refine .inr fun _ again isFound => ?_
   cases found.symm.trans isFound
   intro one
   have notShared : ¬ (Handle.sharedPtr otherPtr otherBlock).sharedBlock = some cb :=
    fun isBlock => twice (some.inj isBlock).symm one
   refine sound.lastGoes found managed isFrees rfl rfl rfl ?_ ?_ ?_ ?_ one
   · refine (write_ptr (by rfl) cb).trans ?_
     dsimp only [State.assign, State.removed, State.settled]
     rw [update_self, samePtr]
   · intro w handle isHandle
     dsimp only [State.write, State.assign, State.removed] at isHandle
     rw [insert_erase] at isHandle
     rcases lookup_of_insert isHandle with rfl | isHandle
     · exact ⟨other, foundOther⟩
     · exact ⟨w, isHandle⟩
   · rw [sharers_insert rfl absent, if_neg notShared]
     exact fewer
   · rw [watchers_insert rfl absent, if_neg nofun]
     exact sameWatchers

theorem Sound.destroy_settles (possible : Possible state (.destroy v)) :
 Settles state (.destroy v) := by
 obtain ⟨handle, found⟩ := isSome_iff_exists.mp (AList.lookup_isSome.mpr possible)
 cases handle with
 | sharedPtr ptr cb =>
  obtain ⟨block, frees, removed, samePtr, refCount, weakCount, isFrees⟩ :=
   sound.removeRef found
  obtain ⟨fewer, sameWatchers⟩ := sharers_removed_shared found block frees
  refine ⟨_, destroy_ok found removed, fun _ => ⟨fun balanced => ?_, fun managed => ⟨?_, ?_⟩⟩⟩
  · exact sound.destroyShared found (balanced.1 ptr cb found) samePtr refCount weakCount isFrees
  · intro _ again isFound
    cases found.symm.trans isFound
    refine sound.lastGoes found managed isFrees rfl rfl rfl ?_ ?_ fewer sameWatchers
    · dsimp only [State.removed, State.settled]
      rw [update_self, samePtr]
    · intro w handle isHandle
      exact ⟨w, lookup_of_erase isHandle⟩
  · simp_all
 | weakPtr cb =>
  obtain ⟨block, frees, removed, samePtr, refCount, weakCount, isFrees⟩ :=
   sound.removeWeak found
  obtain ⟨sameSharers, fewer⟩ := sharers_removed_weak found block frees
  refine ⟨_, destroy_ok found removed, fun _ => ⟨fun balanced => ?_, fun managed => ⟨?_, ?_⟩⟩⟩
  · exact sound.destroyWeak found (balanced.2 cb found) samePtr refCount weakCount isFrees
  · simp_all
  · intro again isFound noSharer
    cases found.symm.trans isFound
    have freesIff := frees_iff managed (sound.alive found) (sound.placed v _ found) rfl
    dsimp only [Handle.block] at freesIff
    grind

theorem Sound.settles {operation : Operation} (possible : Possible state operation) :
 Settles state operation := by
 cases operation with
 | construct v =>
  exact ⟨_, construct_ok sound.unallocated.1 v _, fun _ =>
   ⟨fun _ => sound.construct possible _ (.inr rfl), fun _ => trivial⟩⟩
 | constructNull v =>
  exact ⟨_, construct_ok sound.unallocated.1 v _, fun _ =>
   ⟨fun _ => sound.construct possible _ (.inl rfl), fun _ => trivial⟩⟩
 | copyShared v other =>
  obtain ⟨absent, ptr, cb, found⟩ := possible
  have done : state.copyShared v other = _ := copyShared_ok found (sound.alive found)
  exact ⟨_, done, fun small =>
   ⟨fun _ => sound.copyShared absent found done small, fun _ => trivial⟩⟩
 | assignShared v other => exact sound.assignShared_settles possible
 | constructWeak v other =>
  obtain ⟨absent, ptr, cb, found⟩ := possible
  have done : state.constructWeak v other = _ := constructWeak_ok found (sound.alive found)
  exact ⟨_, done, fun small =>
   ⟨fun _ => sound.constructWeak absent found done small, fun _ => trivial⟩⟩
 | copyWeak v other =>
  obtain ⟨absent, cb, found⟩ := possible
  have done : state.copyWeak v other = _ := copyWeak_ok found
  exact ⟨_, done, fun small =>
   ⟨fun _ => sound.copyWeak absent found done small, fun _ => trivial⟩⟩
 | assignWeak v other =>
  obtain ⟨⟨cb, found⟩, otherBlock, foundOther⟩ := possible
  have done : state.copyWeak v other = .ok (state.assign v (.weakPtr otherBlock)) := by
   unfold State.copyWeak
   rw [fetchWeak_of_lookup foundOther]
   rfl
  have sameHandle : some (Handle.weakPtr otherBlock) = some (Handle.weakPtr cb) ↔
   cb = otherBlock :=
   ⟨fun same => (Handle.weakPtr.inj (some.inj same)).symm, fun same => by rw [same]⟩
  refine ⟨_, done, fun _ => ⟨fun balanced => ?_, fun managed again isFound => ?_⟩⟩
  · have balanced := balanced cb found
    rw [foundOther, sameHandle] at balanced
    exact sound.assignWeak found foundOther balanced
  · cases found.symm.trans isFound
    rw [foundOther, sameHandle]
    exact sound.balanced_of_assignWeak found managed
 | destroy v => exact sound.destroy_settles possible

theorem Sound.managed_iff_balanced (operations : List Operation)
 (possible : PossibleThroughout state operations) :
 ManagedThroughout state operations ↔ BalancedThroughout state operations := by
 induction operations generalizing state with
 | nil => exact iff_of_true sound.managed trivial
 | cons first rest ih =>
  obtain ⟨next, done, either⟩ := sound.settles possible.1
  obtain ⟨small, still⟩ := possible.2 next done
  obtain ⟨right, wrong⟩ := either small
  have onlyNext : ∀ again, state.apply first = .ok again → again = next := fun again isNext =>
   ok.inj (isNext.symm.trans done)
  constructor
  · intro ⟨_, again, isNext, managed⟩
    cases onlyNext again isNext
    have balanced : Balanced state first := by
     refine wrong ?_
     cases rest with
     | nil => exact managed
     | cons second rest => exact managed.1
    refine ⟨balanced, fun again isNext => ?_⟩
    simp_all
  · intro ⟨balanced, throughout⟩
    exact ⟨sound.managed, next, done, (ih (right balanced) still).mpr (throughout next done)⟩

end

/-- The lifetimes are right throughout if and only if the handles that go leave each weak count
as it has to be, and the last `SharedPtr` of an object no `WeakPtr`. -/
theorem managedThroughout_iff_balanced (operations : List Operation)
 (possible : PossibleThroughout start operations) :
 ManagedThroughout start operations ↔ BalancedThroughout start operations :=
 start_sound.managed_iff_balanced operations possible

theorem sharers_le (state : State) (cb : ℕ) : sharers state cb ≤ state.vars.entries.length :=
 countP_le_length

theorem removeRef_vars (done : state.removeRef cb = .ok next) : next.vars = state.vars := by
 obtain ⟨block, -, isNext⟩ := of_map done
 by_cases last : decrement block.refCount = 0
 · rw [if_pos last] at isNext
   by_cases freesIt : decrement block.weakCount = 0
   · rw [if_pos freesIt, delete_eq] at isNext
     rw [← isNext]
     rfl
   · rw [if_neg freesIt] at isNext
     rw [← isNext]
     rfl
 · rw [if_neg last] at isNext
   rw [← isNext]
   rfl

theorem removeWeak_vars (done : state.removeWeak cb = .ok next) : next.vars = state.vars := by
 obtain ⟨block, -, isNext⟩ := of_map done
 by_cases freesIt : decrement block.weakCount = 0 ∧ block.refCount = 0
 · rw [if_pos freesIt, delete_eq] at isNext
   rw [← isNext]
   rfl
 · rw [if_neg freesIt] at isNext
   rw [← isNext]
   rfl

theorem destroy_vars (done : state.apply (.destroy v) = .ok next) :
 next.vars = state.vars.erase v := by
 unfold State.apply State.destroy at done
 dsimp only at done
 cases found : state.vars.lookup v with
 | none =>
  rw [found] at done
  cases done
 | some handle =>
  rw [found] at done
  obtain ⟨removed, isRemoved, isNext⟩ := of_map done
  have vars : removed.vars = state.vars := by
   cases handle with
   | sharedPtr ptr cb => exact removeRef_vars isRemoved
   | weakPtr cb => exact removeWeak_vars isRemoved
  rw [← isNext, ← vars]

theorem managedThroughout_iff_balanced_two :
 ManagedThroughout start
  [.construct 0, .constructWeak 1 0, .copyShared 2 0, .destroy 0, .destroy 1, .destroy 2] ↔
  BalancedThroughout start
   [.construct 0, .constructWeak 1 0, .copyShared 2 0, .destroy 0, .destroy 1,
    .destroy 2] := by
 have few : ∀ (state : State) (vars : Variables Handle), state.vars = vars →
  vars.entries.length < 2 ^ 32 → ∀ cb, sharers state cb < 2 ^ 32 :=
  fun state vars isVars few cb => Nat.lt_of_le_of_lt (sharers_le state cb) (isVars ▸ few)
 apply managedThroughout_iff_balanced
 refine ⟨AList.notMem_empty 0, fun next done => ?_⟩
 cases done
 refine ⟨few _ _ rfl (by decide), ⟨by decide, _, _, rfl⟩, fun next done => ?_⟩
 cases done
 refine ⟨few _ _ rfl (by decide), ⟨by decide, _, _, rfl⟩, fun next done => ?_⟩
 cases done
 refine ⟨few _ _ rfl (by decide), AList.lookup_isSome.mp rfl, fun first done => ?_⟩
 have firstVars := destroy_vars done
 refine ⟨few _ _ firstVars (by decide), ?_, fun second done => ?_⟩
 · rw [Possible, firstVars]
   exact AList.lookup_isSome.mp rfl
 have secondVars := destroy_vars done
 rw [firstVars] at secondVars
 refine ⟨few _ _ secondVars (by decide), ?_, fun third done => ?_⟩
 · rw [Possible, secondVars]
   exact AList.lookup_isSome.mp rfl
 have thirdVars := destroy_vars done
 rw [secondVars] at thirdVars
 exact ⟨few _ _ thirdVars (by decide), trivial⟩

/-- The object outlives its only `SharedPtr`, for a `WeakPtr` is left. -/
theorem object_outlives_owner :
 ¬ ManagedThroughout start [.construct 0, .constructWeak 1 0, .destroy 0] := by
 intro ⟨_, first, firstDone, _, second, secondDone, _, third, thirdDone, managed⟩
 cases firstDone
 cases secondDone
 cases thirdDone
 have count := managed.objects 0 (by decide) 0 rfl
 revert count
 decide

end MyNotes.Memory.ControlBlock
