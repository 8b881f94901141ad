/-
When `bget` gives up.

The search for a victim holds `hashlock`, and one bucket at a time, so that buffers come free
behind it and are taken ahead of it.  A run that never takes the last free buffer ahead while one
is behind comes to the end of the search only with all buffers in use.
-/

import Mathlib.Data.Fintype.Basic
import MyNotes.Xv6.BcacheCoherence

namespace MyNotes.Xv6.Bcache

open Library.Placement Library.Transition Library.WaitGraph Function List State

variable {nbuf : ℕ} {Pid : Type} (hash : Block → Fin numBuckets)

/-! ### Searches -/

/-- The buckets that a search for the block has left. -/
def leftBuckets (block : Block) (left : ℕ) : List (Fin numBuckets) :=
 (List.range left).map fun i => nextBucket^[i] (hash block)

namespace Stage

/-- The block of a search for a victim, and the number of buckets that it has left. -/
def searches : Stage nbuf → Option (Block × ℕ)
 | .visiting block _ i | .scanning block _ i => some (block, i)
 | .passing block _ i => some (block, i + 1)
 | _ => none

/-- The block and the bucket of a loop over a bucket. -/
def scans : Stage nbuf → Option (Block × Fin numBuckets)
 | .scanning block idx _ => some (block, idx)
 | _ => none

/-- The block for which a buffer of the array was taken. -/
def pending : Stage nbuf → Option Block
 | .taken block _ | .filling block _ => some block
 | _ => none

/-- `panic("bget: no buffers")` -/
def gaveUp : Stage nbuf → Bool
 | .panicked .noBuffers => true
 | _ => false

/-- The process does not search, and has not given up. -/
def settled : Stage nbuf → Bool
 | .visiting _ _ _ | .scanning _ _ _ | .passing _ _ _ | .panicked .noBuffers => false
 | _ => true

def InTurn : Stage nbuf → Prop
 | .visiting block idx i => i ≤ numBuckets ∧ idx = nextBucket^[i] (hash block)
 | .scanning block idx i | .passing block idx i =>
  i < numBuckets ∧ idx = nextBucket^[i] (hash block)
 | _ => True

end Stage

namespace State

section

variable (state : State nbuf Pid)

/-- The free buffer is one that the search may still come to. -/
def Ahead (search : Pid) (b : Fin nbuf) : Prop :=
 state.refcnt b = 0 ∧ ∃ found ∈ (state.stage search).searches,
  ∀ idx ∈ leftBuckets hash found.1 found.2, b ∉ state.buckets idx

/-- The free buffer is in a bucket that the search has left. -/
def Behind (search : Pid) (b : Fin nbuf) : Prop :=
 state.refcnt b = 0 ∧ ∃ found ∈ (state.stage search).searches,
  ∃ idx ∈ leftBuckets hash found.1 found.2, b ∈ state.buckets idx

/-- The buffer to which the next step of a process gives a reference: it has the block that the
process looks up, or was taken from the array. -/
def takes (pid : Pid) : Option (Fin nbuf) :=
 match state.stage pid with
 | .searching block => (state.buckets (hash block)).find? fun b => state.block b = block
 | .filling _ b => some b
 | _ => none

/-- The process takes the last free buffer that the search may still come to, while the search
has left one behind. -/
def Robs (pid search : Pid) : Prop :=
 ∃ b ∈ state.takes hash pid, state.Ahead hash search b ∧
  (∀ other, state.Ahead hash search other → other = b) ∧
   ∃ other, state.Behind hash search other

/-- The search is about to leave a bucket, in which its block is not, with free buffers that all
have the greatest timestamp, and there is no free one elsewhere for it to come to. -/
def Overlooks (pid : Pid) : Prop :=
 ∃ found ∈ (state.stage pid).scans,
  (∃ b ∈ state.buckets found.2, state.refcnt b = 0) ∧
  (∀ b ∈ state.buckets found.2, state.refcnt b = 0 → state.timestamp b = -1) ∧
  (found.2 = hash found.1 → ∀ b ∈ state.buckets found.2, state.block b ≠ found.1) ∧
  ∀ b, state.Ahead hash pid b → b ∈ state.buckets found.2

def AllUsed : Prop := ∀ b, 0 < state.refcnt b

end

instance (state : State nbuf Pid) : Decidable state.AllUsed :=
 inferInstanceAs (Decidable (∀ _, _))

instance (state : State nbuf Pid) (search : Pid) (b : Fin nbuf) :
 Decidable (state.Ahead hash search b) :=
 inferInstanceAs (Decidable (_ ∧ _))

instance (state : State nbuf Pid) (search : Pid) (b : Fin nbuf) :
 Decidable (state.Behind hash search b) :=
 inferInstanceAs (Decidable (_ ∧ _))

instance (state : State nbuf Pid) (pid search : Pid) : Decidable (state.Robs hash pid search) :=
 inferInstanceAs (Decidable (∃ _ ∈ _, _))

instance (state : State nbuf Pid) (pid : Pid) : Decidable (state.Overlooks hash pid) :=
 inferInstanceAs (Decidable (∃ _ ∈ _, _))

end State

/-! ### Runs with a history -/

variable [DecidableEq Pid]

def Event.begins : Event nbuf Pid → Pid → Bool
 | .bget other _, pid => other = pid
 | _, _ => false

/-- A state and, for each process, whether there was a moment since its last call of `bget` at
which all buffers were in use. -/
structure Watch (nbuf : ℕ) (Pid : Type) where
 state : State nbuf Pid
 saw : Pid → Bool

namespace Watch

omit [DecidableEq Pid] in
def start : Watch nbuf Pid := ⟨State.start, fun _ => false⟩

def step (self : Watch nbuf Pid) (event : Event nbuf Pid) : Option (Watch nbuf Pid) :=
 (self.state.step hash event).map fun next =>
  ⟨next, fun pid => (!event.begins pid && self.saw pid) || decide next.AllUsed⟩

section

omit [DecidableEq Pid]

/-- The step robs no search of a call at every moment of which there was a free buffer, and no
such search overlooks the last one. -/
def Steady (watch : Watch nbuf Pid) : Event nbuf Pid → Prop
 | .run pid _ => (∀ search, watch.saw search = false → ¬watch.state.Robs hash pid search) ∧
  (watch.saw pid = false → ¬watch.state.Overlooks hash pid)
 | _ => True

instance [Fintype Pid] (watch : Watch nbuf Pid) : ∀ event, Decidable (watch.Steady hash event)
 | .run pid _ => inferInstanceAs (Decidable
  ((∀ search, watch.saw search = false → ¬watch.state.Robs hash pid search) ∧
   (watch.saw pid = false → ¬watch.state.Overlooks hash pid)))
 | .bget _ _ | .call _ _ | .pass _ _ => .isTrue trivial

/-- A call of `bget` that gave up had a moment at which every buffer was in use. -/
def GivesUpRightly (watch : Watch nbuf Pid) : Prop :=
 ∀ pid, watch.state.stage pid = .panicked .noBuffers → watch.saw pid = true

end

end Watch

/-! ### Searches and loops -/

variable {stage : Stage nbuf}

theorem Stage.eq_of_gaveUp (gaveUp : stage.gaveUp = true) : stage = .panicked .noBuffers := by
 cases stage with
 | panicked panic =>
  cases panic with
  | noBuffers => rfl
  | brelse => cases gaveUp
 | _ => cases gaveUp

variable {hash}

variable {idx : Fin numBuckets} {block : Block}

theorem mem_leftBuckets_succ {left : ℕ} :
 idx ∈ leftBuckets hash block (left + 1) ↔
  idx ∈ leftBuckets hash block left ∨ idx = nextBucket^[left] (hash block) := by
 unfold leftBuckets
 grind

theorem exists_nextBucket : ∀ start idx : Fin numBuckets,
 ∃ i < numBuckets, nextBucket^[i] start = idx := by
 decide

theorem mem_leftBuckets_end {left : ℕ} (ended : numBuckets ≤ left) (idx : Fin numBuckets) :
 idx ∈ leftBuckets hash block left := by
 obtain ⟨i, bound, same⟩ := exists_nextBucket (hash block) idx
 exact mem_map.mpr ⟨i, mem_range.mpr (Nat.lt_of_lt_of_le bound ended), same⟩

theorem Stage.settled_of_unlocked (unlocked : .hashlock ∉ stage.locks hash) :
 stage.settled = true := by
 cases stage with
 | visiting | scanning | passing => exact absurd mem_cons_self unlocked
 | panicked panic =>
  cases panic with
  | noBuffers => exact absurd mem_cons_self unlocked
  | brelse => rfl
 | _ => rfl

theorem Stage.bucket_of_pending (waits : block ∈ stage.pending) :
 .bucket (hash block) ∈ stage.locks hash := by
 cases stage with
 | taken | filling =>
  cases waits
  exact mem_cons_self
 | _ => cases waits

namespace State

variable {state next : State nbuf Pid} {pid search : Pid} {b : Fin nbuf} {ticks : UInt32}
 {block : Block} {stage : Stage nbuf}

variable {found : Block × ℕ}

omit [DecidableEq Pid] in
theorem ahead_or_behind (searches : (state.stage search).searches = some found)
 (free : state.refcnt b = 0) :
 state.Ahead hash search b ∨ state.Behind hash search b := by
 by_cases passed : ∃ idx ∈ leftBuckets hash found.1 found.2, b ∈ state.buckets idx
 · exact .inr ⟨free, found, searches, passed⟩
 · refine .inl ⟨free, found, searches, fun idx left inside => ?_⟩
   exact passed ⟨idx, left, inside⟩

omit [DecidableEq Pid] in
theorem scan_none {own : Bool} {list : List (Fin nbuf)} {minb : Option (Fin nbuf)}
 {mintimestamp : UInt32} (scanned : state.scan block own list minb mintimestamp = .least none) :
 minb = none ∧ ∀ b ∈ list, state.refcnt b = 0 → ¬state.timestamp b < mintimestamp := by
 induction list generalizing minb mintimestamp with
 | nil =>
  cases scanned
  simp
 | cons first rest ih =>
  rw [scan] at scanned
  split at scanned
  · cases scanned
  · split at scanned
    · cases (ih scanned).1
    · rename_i passed
      obtain ⟨none, later⟩ := ih scanned
      refine ⟨none, fun b member free => ?_⟩
      rcases mem_cons.mp member with isFirst | inRest
      · simp_all
      · exact later b inRest free

theorem eq_of_not_lt {timestamp : UInt32} (least : ¬timestamp < -1) : timestamp = -1 := by
 have bound := timestamp.toNat_lt
 rw [UInt32.lt_iff_toNat_lt] at least
 have greatest : (-1 : UInt32).toNat = 4294967295 := rfl
 apply UInt32.toNat_inj.mp
 omega

section

omit [DecidableEq Pid]

theorem Consistent.refcnt_nonneg (consistent : state.Consistent hash) (b : Fin nbuf) :
 0 ≤ state.refcnt b := by
 rw [consistent.counted]
 exact Int.natCast_nonneg _

theorem Consistent.exists_free (consistent : state.Consistent hash) (some : ¬state.AllUsed) :
 ∃ b, state.refcnt b = 0 := by
 obtain ⟨b, unused⟩ := not_forall.mp some
 have bound := consistent.refcnt_nonneg b
 exact ⟨b, by omega⟩

theorem Consistent.unheld (consistent : state.Consistent hash) (free : state.refcnt b = 0) :
 ∀ hold ∈ state.held, hold.b ≠ b := by
 have counted := consistent.counted b
 rw [free] at counted
 exact holds_eq_zero.mp (Int.ofNat_eq_zero.mp counted.symm)

end

/-! ### The steps of a process without `hashlock` -/

/-- What such a step does to the buffers: a free one stays free unless the process takes it, and
none is linked but that one. -/
structure Effect (hash : Block → Fin numBuckets) (state next : State nbuf Pid) (pid : Pid)
 (stage : Stage nbuf) : Prop where
 moved : next.stage = Function.update state.stage pid stage
 pending : nbuf ≤ state.size → ∀ block ∈ stage.pending, block ∈ (state.stage pid).pending
 kept : ∀ b, state.takes hash pid ≠ some b → state.refcnt b = 0 → next.refcnt b = 0
 taken : ∀ b, state.takes hash pid = some b →
  next.refcnt b ≠ 0 ∧ ∀ other ≠ b, next.refcnt other = state.refcnt other
 linked : ∀ b idx, b ∈ next.buckets idx →
  b ∈ state.buckets idx ∨ state.takes hash pid = some b

omit [DecidableEq Pid] in
theorem keeps_pending {before : Stage nbuf} (unfilled : stage.pending = none) (block : Block)
 (waits : block ∈ stage.pending) : block ∈ before.pending := by
 rw [unfilled] at waits
 cases waits

section

variable (moved : next.stage = Function.update state.stage pid stage)
include moved

theorem Effect.unchanged
 (pending : nbuf ≤ state.size → ∀ block ∈ stage.pending, block ∈ (state.stage pid).pending)
 (none : state.takes hash pid = none) (buckets : next.buckets = state.buckets)
 (kept : ∀ b, state.refcnt b = 0 → next.refcnt b = 0) : Effect hash state next pid stage where
 moved := moved
 pending := pending
 kept b _ := kept b
 taken b impossible := by
  rw [none] at impossible
  cases impossible
 linked b idx inside := .inl (buckets ▸ inside)

theorem Effect.quiet (unfilled : stage.pending = none) (none : state.takes hash pid = none)
 (buckets : next.buckets = state.buckets) (kept : ∀ b, state.refcnt b = 0 → next.refcnt b = 0) :
 Effect hash state next pid stage :=
 .unchanged moved (fun _ => keeps_pending unfilled) none buckets kept

theorem Effect.taking {count : ℤ} (unfilled : stage.pending = none)
 (takes : state.takes hash pid = some b)
 (refcnt : next.refcnt = Function.update state.refcnt b count) (positive : count ≠ 0)
 (linked : ∀ other idx, other ∈ next.buckets idx → other ∈ state.buckets idx ∨ other = b) :
 Effect hash state next pid stage where
 moved := moved
 pending _ := keeps_pending unfilled
 kept other different free := by
  have here : other ≠ b := fun same => different (same ▸ takes)
  rw [refcnt, update_of_ne here, free]
 taken other same := by
  simp_all
 linked other idx inside := by
  rcases linked other idx inside with before | same
  · exact .inl before
  · exact .inr (same ▸ takes)

end

theorem Consistent.update_kept {call : Call} (consistent : state.Consistent hash)
 (held : ⟨pid, block, b⟩ ∈ state.held) (other : Fin nbuf) (free : state.refcnt other = 0) :
 (state.update ⟨pid, block, b⟩ ticks call).refcnt other = 0 := by
 have different : other ≠ b := fun same => consistent.unheld free _ held same.symm
 cases call with
 | brelse =>
  simp only [State.update]
  split
  · exact (update_of_ne different _ _).trans free
  · exact (update_of_ne different _ _).trans free
 | bpin | bunpin => exact (update_of_ne different _ _).trans free

theorem update_frame {call : Call} {hold : Hold nbuf Pid} :
 (state.update hold ticks call).buckets = state.buckets ∧
  (state.update hold ticks call).stage = state.stage := by
 cases call with
 | brelse =>
  simp only [update]
  split
  · exact ⟨rfl, rfl⟩
  · exact ⟨rfl, rfl⟩
 | bpin | bunpin => exact ⟨rfl, rfl⟩

omit [DecidableEq Pid] in
theorem mem_link {place : Fin numBuckets} {other : Fin nbuf}
 (inside : other ∈ (state.link idx b).buckets place) :
 other ∈ state.buckets place ∨ other = b := by
 by_cases here : place = idx
 · subst here
   simp only [link, update_self] at inside
   exact (mem_cons.mp inside).symm
 · simp only [link, update_of_ne here] at inside
   exact .inl inside

theorem Consistent.run_effect (consistent : state.Consistent hash)
 (unlocked : .hashlock ∉ (state.stage pid).locks hash)
 (taken : state.run hash pid ticks = some next) : ∃ stage, Effect hash state next pid stage ∧
  (stage.settled = true ∨ ∃ block, stage = .visiting block (hash block) 0) := by
 have good := consistent.good pid
 cases stage : state.stage pid with
 | idle | panicked =>
  simp only [State.run, stage] at taken
  cases taken
 | visiting | relinking | ending | scanning | passing | moving | linking | reused =>
  rw [stage] at unlocked
  exact absurd mem_cons_self unlocked
 | entering | notCached | locking =>
  simp only [State.run, stage] at taken
  split at taken
  · cases taken
    exact ⟨_, .quiet rfl rfl (by simp [takes, stage]) rfl fun _ => id, .inl rfl⟩
  · cases taken
 | evicting =>
  simp only [State.run, stage] at taken
  split at taken
  · cases taken
    exact ⟨_, .quiet rfl rfl (by simp [takes, stage]) rfl fun _ => id, .inr ⟨_, rfl⟩⟩
  · cases taken
 | taken =>
  simp only [State.run, stage] at taken
  cases taken
  refine ⟨_, .unchanged rfl ?_ (by simp [takes, stage]) rfl fun _ => id, .inl rfl⟩
  rw [stage]
  exact fun _ _ => id
 | found | full | leaving | updated | indexing =>
  simp only [State.run, stage] at taken
  cases taken
  exact ⟨_, .quiet rfl rfl (by simp [takes, stage]) rfl fun _ => id, .inl rfl⟩
 | sizing =>
  simp only [State.run, stage] at taken
  split at taken
  · rename_i within
    cases taken
    exact ⟨_, .unchanged rfl (fun full => absurd within (Nat.not_lt.mpr full))
     (by simp [takes, stage]) rfl fun _ => id, .inl rfl⟩
  · cases taken
    exact ⟨_, .quiet rfl rfl (by simp [takes, stage]) rfl fun _ => id, .inl rfl⟩
 | sleeping =>
  simp only [State.run, stage] at taken
  split at taken
  · cases taken
    exact ⟨_, .quiet rfl rfl (by simp [takes, stage]) rfl fun _ => id, .inl rfl⟩
  · cases taken
 | releasing =>
  simp only [State.run, stage] at taken
  split at taken
  · cases taken
    exact ⟨_, .quiet rfl rfl (by simp [takes, stage]) rfl fun _ => id, .inl rfl⟩
  · cases taken
    exact ⟨_, .quiet rfl rfl (by simp [takes, stage]) rfl fun _ => id, .inl rfl⟩
 | updating call block b idx =>
  rw [stage] at good
  simp only [State.run, stage] at taken
  cases taken
  obtain ⟨buckets, stages⟩ := @update_frame _ _ _ state ticks call ⟨pid, block, b⟩
  refine ⟨.updated idx, .quiet ?_ rfl (by simp [takes, stage]) buckets
   (consistent.update_kept good.1), .inl rfl⟩
  rw [← stages]
  rfl
 | searching block =>
  simp only [State.run, stage] at taken
  cases found : (state.buckets (hash block)).find? fun b => state.block b = block with
  | none =>
   rw [found] at taken
   cases taken
   exact ⟨_, .quiet rfl rfl (by simp [takes, stage, found]) rfl fun _ => id,
    .inl rfl⟩
  | some b =>
   rw [found] at taken
   cases taken
   have bound := consistent.refcnt_nonneg b
   refine ⟨_, .taking rfl rfl (by simp [takes, stage, found]) rfl ?_ fun _ _ => .inl,
    .inl rfl⟩
   change state.refcnt b + 1 ≠ 0
   omega
 | filling block b =>
  simp only [State.run, stage] at taken
  cases taken
  refine ⟨_, .taking rfl rfl (by simp [takes, stage]) rfl Int.one_ne_zero ?_,
   .inl rfl⟩
  exact fun _ _ => mem_link

/-! ### What a process knows -/

/-- A search visits the buckets in turn, leaves none for which a buffer of the array is still to
be linked, and may come to a free buffer until all were in use. -/
structure Sound (hash : Block → Fin numBuckets) (state : State nbuf Pid) (saw : Bool)
 (pid : Pid) : Prop where
 inTurn : (state.stage pid).InTurn hash
 pending : ∀ found ∈ (state.stage pid).searches, ∀ other, ∀ block ∈ (state.stage other).pending,
  hash block ∉ leftBuckets hash found.1 found.2
 ahead : ∀ found ∈ (state.stage pid).searches, saw = true ∨ ∃ b, state.Ahead hash pid b
 rightly : state.stage pid = .panicked .noBuffers → saw = true

variable {saw : Bool}

omit [DecidableEq Pid] in
theorem Sound.rest (here : next.stage pid = stage) (none : stage.searches = none)
 (rightly : stage = .panicked .noBuffers → saw = true) : next.Sound hash saw pid := by
 subst here
 refine ⟨?_, ?_, ?_, rightly⟩
 · cases stage : next.stage pid with
   | visiting | scanning | passing =>
    rw [stage] at none
    cases none
   | _ => trivial
 · simp_all
 · simp_all

omit [DecidableEq Pid] in
theorem Sound.idle (here : next.stage pid = stage) (settled : stage.settled = true) :
 next.Sound hash saw pid := by
 refine .rest here ?_ fun panicked => ?_
 · cases stage with
   | visiting | scanning | passing => cases settled
   | _ => rfl
 · rw [panicked] at settled
   cases settled

theorem pending_of_moved (moved : next.stage = Function.update state.stage pid stage)
 (kept : ∀ block ∈ stage.pending, block ∈ (state.stage pid).pending) (other : Pid)
 (waits : block ∈ (next.stage other).pending) : block ∈ (state.stage other).pending := by
 rw [moved] at waits
 by_cases here : other = pid
 · simp_all
 · rwa [update_of_ne here] at waits

theorem Effect.keeps_ahead (effect : Effect hash state next pid stage) (other : search ≠ pid)
 (ahead : state.Ahead hash search b) (left : state.takes hash pid ≠ some b) :
 next.Ahead hash search b := by
 obtain ⟨free, found, searches, passed⟩ := ahead
 refine ⟨effect.kept b left free, found, ?_, fun idx before inside => ?_⟩
 · rw [effect.moved, update_of_ne other]
   exact searches
 · rcases effect.linked b idx inside with linked | takes
   · exact passed idx before linked
   · exact left takes

theorem Effect.ahead (effect : Effect hash state next pid stage)
 (consistent : next.Consistent hash) (other : search ≠ pid)
 (fair : ¬state.Robs hash pid search) (ahead : ∃ b, state.Ahead hash search b) :
 next.AllUsed ∨ ∃ b, next.Ahead hash search b := by
 by_cases spared : ∃ b, state.Ahead hash search b ∧ state.takes hash pid ≠ some b
 · obtain ⟨b, front, left⟩ := spared
   exact .inr ⟨b, effect.keeps_ahead other front left⟩
 · have allTaken (item : Fin nbuf) (front : state.Ahead hash search item) :
    state.takes hash pid = some item :=
    Decidable.byContradiction fun left => spared ⟨item, front, left⟩
   obtain ⟨b, last⟩ := ahead
   have takes : state.takes hash pid = some b := allTaken b last
   have only (item : Fin nbuf) (front : state.Ahead hash search item) : item = b :=
    Option.some.inj ((allTaken item front).symm.trans takes)
   refine .inl (Decidable.byContradiction fun notAll => ?_)
   obtain ⟨item, free⟩ := consistent.exists_free notAll
   obtain ⟨used, others⟩ := effect.taken b takes
   have different : item ≠ b := fun same => used (same ▸ free)
   have wasFree : state.refcnt item = 0 := (others item different).symm.trans free
   have ⟨_, found, searches, _⟩ := last
   rcases ahead_or_behind searches wasFree with front | behind
   · exact different (only item front)
   · exact fair ⟨b, takes, last, only, item, behind⟩

omit [DecidableEq Pid] in
theorem Consistent.full (consistent : state.Consistent hash)
 (searches : found ∈ (state.stage pid).searches) : nbuf ≤ state.size := by
 have good := consistent.good pid
 cases stage : state.stage pid with
 | visiting | scanning | passing =>
  rw [stage] at good
  exact good.1
 | _ =>
  rw [stage] at searches
  cases searches

theorem Sound.frame (sound : state.Sound hash saw search) (before : state.Consistent hash)
 (effect : Effect hash state next pid stage) (consistent : next.Consistent hash)
 (other : search ≠ pid) (fair : saw = false → ¬state.Robs hash pid search) :
 next.Sound hash (saw || decide next.AllUsed) search := by
 have same : next.stage search = state.stage search := by
  rw [effect.moved, update_of_ne other]
 refine ⟨same ▸ sound.inTurn, ?_, ?_, ?_⟩
 · rw [same]
   intro found searches third block waits
   exact sound.pending found searches third block
    (pending_of_moved effect.moved (effect.pending (before.full searches)) third waits)
 · rw [same]
   intro found searches
   cases seen : saw with
   | true => exact .inl rfl
   | false =>
    have ahead := (sound.ahead found searches).resolve_left fun now => by
     rw [seen] at now
     cases now
    refine (effect.ahead consistent other (fair seen) ahead).imp_left fun all => ?_
    rw [decide_eq_true all, Bool.or_true]
 · rw [same]
   intro panicked
   rw [sound.rightly panicked, Bool.true_or]


/-! ### The steps of a search -/

omit [DecidableEq Pid] in
theorem Sound.begin (consistent : next.Consistent hash)
 (here : next.stage pid = .visiting block (hash block) 0) :
 next.Sound hash (saw || decide next.AllUsed) pid where
 inTurn := by
  rw [here]
  exact ⟨Nat.zero_le _, rfl⟩
 pending := by
  rw [here]
  rintro _ ⟨⟩ other block -
  exact not_mem_nil
 ahead := by
  rw [here]
  rintro _ ⟨⟩
  by_cases all : next.AllUsed
  · exact .inl (by rw [decide_eq_true all, Bool.or_true])
  · obtain ⟨b, free⟩ := consistent.exists_free all
    refine .inr ⟨b, free, (block, 0), by rw [here]; rfl, ?_⟩
    exact fun _ impossible => absurd impossible not_mem_nil
 rightly panicked := by
  rw [here] at panicked
  cases panicked

omit [DecidableEq Pid] in
theorem Sound.mono (sound : state.Sound hash saw pid) (now : Bool) :
 state.Sound hash (saw || now) pid where
 inTurn := sound.inTurn
 pending := sound.pending
 ahead found searches := (sound.ahead found searches).imp_left fun seen => by
  rw [seen, Bool.true_or]
 rightly panicked := by rw [sound.rightly panicked, Bool.true_or]

theorem Sound.proceed (sound : state.Sound hash saw pid)
 (moved : next.stage = Function.update state.stage pid stage)
 (before : (state.stage pid).searches = some found) (after : stage.searches = some found)
 (unfilled : stage.pending = none) (refcnt : next.refcnt = state.refcnt)
 (buckets : next.buckets = state.buckets) (inTurn : stage.InTurn hash) :
 next.Sound hash saw pid := by
 have mine : next.stage pid = stage := by rw [moved, update_self]
 have same : stage.searches = (state.stage pid).searches := after.trans before.symm
 refine ⟨mine ▸ inTurn, ?_, ?_, fun panicked => ?_⟩
 · rw [mine, same]
   intro found searches other block waits
   exact sound.pending found searches other block
    (pending_of_moved moved (keeps_pending unfilled) other waits)
 · rw [mine, same]
   intro found searches
   refine (sound.ahead found searches).imp_right fun ⟨b, front⟩ => ⟨b, ?_⟩
   unfold Ahead at front ⊢
   rwa [refcnt, buckets, mine, same]
 · rw [← mine, panicked] at after
   cases after

variable {i : ℕ}

section

variable (sound : state.Sound hash saw pid)
include sound

variable (consistent : state.Consistent hash)
include consistent

theorem Sound.leave (scanning : state.stage pid = .scanning block idx i)
 (scanned : state.scan block (idx = hash block) (state.buckets idx) none (-1) = .least none)
 (careful : saw = false → ¬state.Overlooks hash pid)
 (moved : next.stage = Function.update state.stage pid (.passing block idx i))
 (refcnt : next.refcnt = state.refcnt) (buckets : next.buckets = state.buckets) :
 next.Sound hash saw pid := by
 have mine : next.stage pid = .passing block idx i := by rw [moved, update_self]
 have searches : (block, i) ∈ (state.stage pid).searches := by
  rw [scanning]
  rfl
 have inTurn := sound.inTurn
 rw [scanning] at inTurn
 constructor
 case inTurn =>
  rw [mine]
  exact inTurn
 case pending =>
  rw [mine]
  rintro _ ⟨⟩ other waiting waits left
  have before := pending_of_moved moved (keeps_pending rfl) other waits
  rcases mem_leftBuckets_succ.mp left with earlier | last
  · exact sound.pending _ searches other waiting before earlier
  · have locked : .bucket (hash waiting) ∈ (state.stage pid).locks hash := by
     rw [scanning, last, ← inTurn.2]
     exact mem_cons_of_mem _ mem_cons_self
    have here := consistent.owns.exclusive locked (Stage.bucket_of_pending before)
    rw [← here, scanning] at before
    cases before
 case ahead =>
  rw [mine]
  rintro _ ⟨⟩
  cases seen : saw with
  | true => exact .inl rfl
  | false =>
   obtain ⟨b, front⟩ := (sound.ahead _ searches).resolve_left fun now => by
    rw [seen] at now
    cases now
   have later : ∃ b, state.Ahead hash pid b ∧ b ∉ state.buckets idx := by
    by_contra none
    have inside (item : Fin nbuf) (isAhead : state.Ahead hash pid item) :
     item ∈ state.buckets idx :=
     Decidable.byContradiction fun outside => none ⟨item, isAhead, outside⟩
    refine careful seen ⟨(block, idx), by rw [scanning]; rfl,
     ⟨b, inside b front, front.1⟩, ?_, ?_, inside⟩
    · exact fun item member free => eq_of_not_lt ((scan_none scanned).2 item member free)
    · exact fun own => (scan_least scanned).1 (decide_eq_true own)
   obtain ⟨item, ⟨free, found, isFound, passed⟩, outside⟩ := later
   cases isFound.symm.trans searches
   refine .inr ⟨item, refcnt ▸ free, (block, i + 1), by rw [mine]; rfl, fun place left => ?_⟩
   rw [buckets]
   rcases mem_leftBuckets_succ.mp left with earlier | last
   · exact passed place earlier
   · rw [last, ← inTurn.2]
     exact outside
 case rightly =>
  simp_all

omit [DecidableEq Pid] in
theorem Sound.not_ahead (visiting : state.stage pid = .visiting block idx i)
 (ended : numBuckets ≤ i) : ¬state.Ahead hash pid b := by
 rintro ⟨-, found, searches, passed⟩
 have good := consistent.good pid
 rw [visiting] at good searches
 cases searches
 obtain ⟨place, inside, -⟩ := consistent.placed.one b (Nat.lt_of_lt_of_le b.isLt good.1)
 cases place with
 | inl idx => exact passed idx (mem_leftBuckets_end ended idx) inside
 | inr other =>
  obtain ⟨waiting, carried⟩ := Stage.mem_hand.mp inside
  have free (waits : waiting ∈ (state.stage other).pending) : False := by
   refine sound.pending (block, i) ?_ other waiting waits (mem_leftBuckets_end ended _)
   rw [visiting]
   rfl
  have alone (locked : .hashlock ∈ (state.stage other).locks hash) :
   state.stage other = .visiting block idx i := by
   have mine : .hashlock ∈ (state.stage pid).locks hash := by
    rw [visiting]
    exact mem_cons_self
   rw [consistent.owns.exclusive locked mine, visiting]
  cases stage : state.stage other with
  | taken | filling =>
   rw [stage] at carried free
   cases carried
   exact free rfl
  | moving | relinking | linking =>
   rw [stage] at alone
   cases alone mem_cons_self
  | _ =>
   rw [stage] at carried
   cases carried

theorem Sound.run_scan (scanning : state.stage pid = .scanning block idx i)
 (careful : saw = false → ¬state.Overlooks hash pid)
 (taken : state.run hash pid ticks = some next) :
 ∃ stage, next.stage = Function.update state.stage pid stage ∧ next.Sound hash saw pid := by
 simp only [run, scanning] at taken
 cases scanned : state.scan block (idx = hash block) (state.buckets idx) none (-1) with
 | cached b =>
  rw [scanned] at taken
  cases taken
  exact ⟨_, rfl, .idle (update_self _ _ _) rfl⟩
 | least minb =>
  rw [scanned] at taken
  cases minb with
  | none =>
   cases taken
   exact ⟨_, rfl, sound.leave consistent scanning scanned careful rfl rfl rfl⟩
  | some b =>
   simp only at taken
   split at taken
   · cases taken
     exact ⟨_, rfl, .idle (update_self _ _ _) rfl⟩
   · cases taken
     exact ⟨_, rfl, .idle (update_self _ _ _) rfl⟩

theorem Sound.run (locked : .hashlock ∈ (state.stage pid).locks hash)
 (careful : saw = false → ¬state.Overlooks hash pid)
 (taken : state.run hash pid ticks = some next) :
 ∃ stage, next.stage = Function.update state.stage pid stage ∧ next.Sound hash saw pid := by
 have inTurn := sound.inTurn
 cases stage : state.stage pid with
 | scanning => exact sound.run_scan consistent stage careful taken
 | visiting block idx i =>
  rw [stage] at inTurn
  simp only [State.run, stage] at taken
  split at taken
  · rename_i more
    split at taken
    · cases taken
      refine ⟨_, rfl, sound.proceed rfl ?_ rfl rfl rfl rfl ⟨more, inTurn.2⟩⟩
      rw [stage]
      rfl
    · cases taken
  · rename_i ended
    cases taken
    have searches : (block, i) ∈ (state.stage pid).searches := by
     rw [stage]
     rfl
    have seen : saw = true := by
     refine (sound.ahead _ searches).resolve_right ?_
     rintro ⟨b, front⟩
     exact sound.not_ahead consistent stage (Nat.le_of_not_lt ended) front
    exact ⟨_, rfl, .rest (update_self _ _ _) rfl fun _ => seen⟩
 | passing block idx i =>
  rw [stage] at inTurn
  simp only [State.run, stage] at taken
  cases taken
  refine ⟨_, rfl, sound.proceed rfl ?_ rfl rfl rfl rfl ⟨inTurn.1, ?_⟩⟩
  · rw [stage]
    rfl
  · rw [inTurn.2, iterate_succ_apply']
 | relinking =>
  simp only [State.run, stage] at taken
  split at taken
  · cases taken
    exact ⟨_, rfl, .idle (update_self _ _ _) rfl⟩
  · cases taken
 | moving | linking | reused | ending =>
  simp only [State.run, stage] at taken
  cases taken
  exact ⟨_, rfl, .idle (update_self _ _ _) rfl⟩
 | panicked =>
  simp only [State.run, stage] at taken
  cases taken
 | _ =>
  rw [stage] at locked
  simp [Stage.locks] at locked

end

theorem call_effect {event : Event nbuf Pid} (taken : state.step hash event = some next)
 (isCall : ∀ pid ticks, event ≠ .run pid ticks) :
 ∃ pid stage, state.stage pid = .idle ∧ Effect hash state next pid stage ∧
  stage.settled = true ∧
   ∀ other ≠ pid, event.begins other = false := by
 cases event with
 | run pid ticks => exact absurd rfl (isCall pid ticks)
 | bget pid block =>
  simp only [step] at taken
  split at taken
  · rename_i idle
    cases taken
    refine ⟨pid, _, idle, .quiet rfl rfl (by simp [takes, idle]) rfl fun _ => id, rfl, ?_⟩
    exact fun other different => decide_eq_false (Ne.symm different)
  · cases taken
 | call call hold =>
  simp only [step] at taken
  split at taken
  · rename_i idle
    split at taken
    · cases call with
      | brelse | bpin | bunpin =>
       cases taken
       exact ⟨hold.pid, _, idle, .quiet rfl rfl (by simp [takes, idle]) rfl fun _ => id,
        rfl, fun _ _ => rfl⟩
    · cases taken
  · cases taken
 | pass hold target =>
  simp only [step] at taken
  split at taken
  · rename_i idle
    split at taken
    · cases taken
      refine ⟨hold.pid, .idle, idle, .quiet ?_ rfl (by simp [takes, idle]) rfl fun _ => id,
       rfl, fun _ _ => rfl⟩
      simp_all
    · cases taken
  · cases taken

end State

/-! ### Runs -/

namespace Watch

variable {watch next : Watch nbuf Pid}

structure Consistent (hash : Block → Fin numBuckets) (watch : Watch nbuf Pid) : Prop where
 state : watch.state.Consistent hash
 sound : ∀ pid, watch.state.Sound hash (watch.saw pid) pid

omit [DecidableEq Pid] in
theorem start_consistent : (start : Watch nbuf Pid).Consistent hash where
 state := State.start_consistent
 sound _ := .idle rfl rfl

theorem Consistent.run {state : State nbuf Pid} {pid : Pid} {ticks : UInt32}
 (consistent : watch.Consistent hash) (steady : watch.Steady hash (.run pid ticks))
 (taken : watch.state.run hash pid ticks = some state) (other : Pid) :
 state.Sound hash (watch.saw other || decide state.AllUsed) other := by
 have after : state.Consistent hash := (consistent.state.run taken).1
 by_cases locked : .hashlock ∈ (watch.state.stage pid).locks hash
 · obtain ⟨stage, moved, sound⟩ :=
    (consistent.sound pid).run consistent.state locked steady.2 taken
   by_cases mine : other = pid
   · rw [mine]
     exact sound.mono _
   · -- Nobody else searches.
     have unlocked : .hashlock ∉ (watch.state.stage other).locks hash :=
      fun theirs => mine (consistent.state.owns.exclusive theirs locked)
     refine .idle ?_ (Stage.settled_of_unlocked unlocked)
     rw [moved, update_of_ne mine]
 · obtain ⟨stage, effect, next⟩ := consistent.state.run_effect locked taken
   by_cases mine : other = pid
   · have here : state.stage other = stage := by
      rw [effect.moved, mine, update_self]
     rcases next with settled | ⟨block, begins⟩
     · exact .idle here settled
     · exact .begin after (here.trans begins)
   · exact (consistent.sound other).frame consistent.state effect after mine (steady.1 other)

theorem Consistent.step {event : Event nbuf Pid} (consistent : watch.Consistent hash)
 (steady : watch.Steady hash event) (taken : watch.step hash event = some next) :
 next.Consistent hash := by
 obtain ⟨state, reached, rfl⟩ := Option.map_eq_some_iff.mp taken
 have after : state.Consistent hash := (consistent.state.step reached).1
 refine ⟨after, fun other => ?_⟩
 by_cases isRun : ∃ pid ticks, event = .run pid ticks
 · obtain ⟨pid, ticks, rfl⟩ := isRun
   exact consistent.run steady reached other
 · obtain ⟨pid, stage, idle, effect, settled, begins⟩ :=
    State.call_effect reached fun pid ticks same => isRun ⟨pid, ticks, same⟩
   by_cases mine : other = pid
   · refine .idle ?_ settled
     rw [effect.moved, mine, update_self]
   · have fair : ¬watch.state.Robs hash pid other := by
      rintro ⟨b, takes, -⟩
      rw [State.takes, idle] at takes
      cases takes
     simp only [begins other mine, Bool.not_false, Bool.true_and]
     exact (consistent.sound other).frame consistent.state effect after mine fun _ => fair

/-- In a run in which no search is robbed and none overlooks a free buffer, `bget` gives up only
where all buffers were in use since it was called. -/
theorem bget_gives_up_rightly (hash : Block → Fin numBuckets) (events : List (Event nbuf Pid))
 (final : Watch nbuf Pid)
 (run : Run (Guarded (Steady hash) (ofFunction (step hash))) start events final) :
 final.GivesUpRightly := by
 have consistent : final.Consistent hash := by
  refine run.invariant start_consistent fun watch event next before taken => ?_
  exact before.step taken.1 taken.2
 exact fun pid => (consistent.sound pid).rightly

theorem bget_gives_up_rightly_oneBuffer : ∃ final : Watch 1 Bool,
 final.state.stage false = .panicked .noBuffers ∧ final.GivesUpRightly := by
 obtain ⟨final, same, panicked⟩ : ∃ final : Watch 1 Bool,
  replay (restrict (Steady State.blocknoHash) (step State.blocknoHash)) start
   (.bget true ⟨1, 0⟩ :: List.replicate 8 (.run true 5) ++
    .bget false ⟨1, 26⟩ :: List.replicate 47 (.run false 7)) = some final ∧
   final.state.stage false = .panicked .noBuffers := ⟨_, rfl, rfl⟩
 exact ⟨final, panicked,
  bget_gives_up_rightly State.blocknoHash _ final (Run.of_replay same)⟩

/-- The search has left the bucket of the first buffer when that buffer is released, and another
process takes the second buffer, in a bucket still to come, before the search gets there. -/
theorem not_bget_gives_up_rightly_race :
 ¬ ∀ (events : List (Event 2 Bool)) (final : Watch 2 Bool),
  Run (ofFunction (step State.blocknoHash)) start events final → final.GivesUpRightly := by
 have ended : (replay (step State.blocknoHash) start (List.flatten
  [[.bget true ⟨1, 0⟩], List.replicate 8 (.run true 5),
   [.bget true ⟨1, 1⟩], List.replicate 8 (.run true 5),
   [.call .brelse ⟨true, ⟨1, 1⟩, 1⟩], List.replicate 5 (.run true 6),
   [.bget false ⟨1, 26⟩], List.replicate 10 (.run false 7),
   [.call .brelse ⟨true, ⟨1, 0⟩, 0⟩], List.replicate 5 (.run true 8),
   [.bget true ⟨1, 1⟩], List.replicate 4 (.run true 9),
   List.replicate 37 (.run false 10)])).map (fun watch : Watch 2 Bool =>
    ((watch.state.stage false).gaveUp, watch.saw false)) = some (true, false) := by
  decide +kernel
 obtain ⟨final, same, last⟩ := Option.map_eq_some_iff.mp ended
 obtain ⟨gaveUp, unseen⟩ := Prod.mk.inj last
 intro always
 have seen : final.saw false = true :=
  always _ final (Run.of_replay_all same) false (Stage.eq_of_gaveUp gaveUp)
 rw [unseen] at seen
 cases seen

end Watch

end MyNotes.Xv6.Bcache
