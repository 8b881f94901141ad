/-
The buffer cache holds a block at most once.

A buffer is carried for a block from the step that takes it from the array, or from another
block, until a step gives it to a block again; no two buffers are carried for one block.  A
process that has searched the bucket of its block in vain, and found all buffers in use, keeps
`hashlock`, so that nobody else can bring the block in.
-/

import MyNotes.Library.Placement
import MyNotes.Xv6.Bcache
import Mathlib.Data.Sum.Basic

namespace MyNotes.Xv6.Bcache

open Library.Placement Library.Transition Library.WaitGraph Function List Sum Option State Stage

variable {nbuf : ℕ} {Pid : Type} {hash : Block → Fin numBuckets}

/-! ### The loops -/

namespace State

variable {state : State nbuf Pid} {block : Block} {own : Bool} {list : List (Fin nbuf)}
 {minb : Option (Fin nbuf)} {mintimestamp : UInt32}

theorem scan_cached {b : Fin nbuf}
 (scanned : state.scan block own list minb mintimestamp = .cached b) :
 own ∧ b ∈ list ∧ state.block b = block := by
 induction list generalizing minb mintimestamp with
 | nil => cases scanned
 | cons first rest ih =>
  simp only [scan] at scanned
  split at scanned
  · simp_all
  · split at scanned
    all_goals
     grind

theorem scan_least {least : Option (Fin nbuf)}
 (scanned : state.scan block own list minb mintimestamp = .least least) :
 (own → ∀ b ∈ list, state.block b ≠ block) ∧
  ∀ b, least = some b → minb = some b ∨ b ∈ list ∧ state.refcnt b = 0 := by
 induction list generalizing minb mintimestamp with
 | nil =>
  cases scanned
  simp
 | cons first rest ih =>
  simp only [scan] at scanned
  split at scanned
  · cases scanned
  · rename_i other
    have differs : own → state.block first ≠ block := fun isOwn same => other ⟨isOwn, same⟩
    split at scanned
    · rename_i unused
      obtain ⟨absent, victim⟩ := ih scanned
      refine ⟨fun isOwn => forall_mem_cons.mpr ⟨differs isOwn, absent isOwn⟩, ?_⟩
      intro b same
      rcases victim b same with here | ⟨inside, zero⟩
      · simp_all
      · simp_all
    · grind

end State

/-! ### Buffers in the hands of processes -/

namespace Stage

/-- The buffer in the hands of the process, and the block it is for. -/
def carries : Stage nbuf → Option (Block × Fin nbuf)
 | .taken block b | .filling block b | .moving block _ b | .relinking block b
 | .linking block b => some (block, b)
 | _ => none

def hand (stage : Stage nbuf) : List (Fin nbuf) := (stage.carries.map Prod.snd).toList

def fresh : Stage nbuf → Option (Fin nbuf)
 | .taken _ b | .filling _ b => some b
 | _ => none

theorem mem_hand {stage : Stage nbuf} {b : Fin nbuf} :
 b ∈ stage.hand ↔ ∃ block, stage.carries = some (block, b) := by
 simp [hand]

theorem mem_hand_of_fresh {stage : Stage nbuf} {b : Fin nbuf} (fresh : stage.fresh = some b) :
 b ∈ stage.hand := by
 cases stage with
 | taken | filling => simpa [hand, carries, Stage.fresh, eq_comm] using fresh
 | _ => cases fresh

end Stage

namespace State

def places (buckets : Fin numBuckets → List (Fin nbuf)) (stage : Pid → Stage nbuf) :
 Fin numBuckets ⊕ Pid → List (Fin nbuf) :=
 Sum.elim buckets fun pid => (stage pid).hand

/-- The buffer is linked with the block, or in the hands of a process for it. -/
def Carries (state : State nbuf Pid) (block : Block) (b : Fin nbuf) : Prop :=
 (∃ idx, b ∈ state.buckets idx ∧ state.block b = block) ∨
  ∃ pid, (state.stage pid).carries = some (block, b)

def Absent (state : State nbuf Pid) (block : Block) : Prop := ∀ b, ¬ state.Carries block b

def holds (state : State nbuf Pid) (b : Fin nbuf) : ℕ :=
 state.held.countP fun hold => hold.b = b

end State

def Stage.Good (hash : Block → Fin numBuckets) (state : State nbuf Pid) (pid : Pid) :
 Stage nbuf → Prop
 | .idle | .panicked _ | .entering _ | .searching _ | .taken _ _ | .filling _ _
 | .updated _ => True
 | .notCached block | .sizing block => ∀ b ∈ state.buckets (hash block), state.block b ≠ block
 | .full _ | .leaving _ | .evicting _ => nbuf ≤ state.size
 | .visiting block idx _ | .scanning block idx _ =>
  nbuf ≤ state.size ∧ (idx ≠ hash block → state.Absent block)
 | .passing block _ _ => nbuf ≤ state.size ∧ state.Absent block
 | .moving block _ b | .relinking block b | .linking block b =>
  nbuf ≤ state.size ∧ ⟨pid, block, b⟩ ∈ state.held
 | .found block b | .reused block b | .ending block b | .sleeping block b | .releasing block b
 | .indexing _ block b => ⟨pid, block, b⟩ ∈ state.held
 | .locking _ block b idx | .updating _ block b idx =>
  ⟨pid, block, b⟩ ∈ state.held ∧ idx = hash block

theorem Stage.Good.frame {state next : State nbuf Pid} {pid : Pid} {stage : Stage nbuf}
 (good : stage.Good hash state pid)
 (lists : ∀ idx, .bucket idx ∈ stage.locks hash → next.buckets idx = state.buckets idx ∧
  ∀ b ∈ state.buckets idx, next.block b = state.block b)
 (size : state.size ≤ next.size)
 (absent : ∀ block, .hashlock ∈ stage.locks hash → nbuf ≤ state.size → state.Absent block →
  next.Absent block)
 (held : ∀ hold ∈ state.held, hold.pid = pid → hold ∈ next.held) :
 stage.Good hash next pid := by
 cases stage with
 | idle | panicked | entering | searching | taken | filling | updated => trivial
 | notCached block | sizing block =>
  intro b inside
  obtain ⟨same, kept⟩ := lists (hash block) mem_cons_self
  rw [same] at inside
  rw [kept b inside]
  exact good b inside
 | full | leaving | evicting => exact Nat.le_trans good size
 | visiting | scanning =>
  exact ⟨Nat.le_trans good.1 size, fun other =>
   absent _ mem_cons_self good.1 (good.2 other)⟩
 | passing =>
  exact ⟨Nat.le_trans good.1 size, absent _ mem_cons_self good.1 good.2⟩
 | moving | relinking | linking => exact ⟨Nat.le_trans good.1 size, held _ good.2 rfl⟩
 | found | reused | ending | sleeping | releasing | indexing => exact held _ good rfl
 | locking | updating => exact ⟨held _ good.1 rfl, good.2⟩

namespace State

structure Consistent (hash : Block → Fin numBuckets) (state : State nbuf Pid) : Prop where
 placed : Placed (fun b : Fin nbuf => b.val < state.size) (places state.buckets state.stage)
 hashed : ∀ idx, ∀ b ∈ state.buckets idx, hash (state.block b) = idx
 distinct : ∀ block b other, state.Carries block b → state.Carries block other → b = other
 counted : ∀ b, state.refcnt b = state.holds b
 known : ∀ hold ∈ state.held, state.block hold.b = hold.block ∧ hold.b.val < state.size ∧
  ∀ pid, (state.stage pid).fresh ≠ some hold.b
 owns : Owns state.owner fun pid => (state.stage pid).locks hash
 good : ∀ pid, (state.stage pid).Good hash state pid

theorem start_consistent : (start : State nbuf Pid).Consistent hash where
 placed :=
  { nodup := by rintro (idx | pid) <;> exact nodup_nil
    known := by rintro (idx | pid) b none <;> exact absurd none not_mem_nil
    one := fun b within => absurd within (Nat.not_lt_zero _) }
 hashed _ _ none := absurd none not_mem_nil
 distinct := by
  rintro block b other (⟨idx, none, -⟩ | ⟨pid, none⟩)
  · exact absurd none not_mem_nil
  · cases none
 counted _ := rfl
 known _ none := absurd none not_mem_nil
 owns _ _ := iff_of_false nofun not_mem_nil
 good _ := trivial

variable [DecidableEq Pid] {state next : State nbuf Pid} {pid : Pid} {before stage : Stage nbuf}
 {block : Block} {b : Fin nbuf}

theorem Consistent.update (consistent : state.Consistent hash)
 (moved : next.stage = Function.update state.stage pid stage)
 (placed : Placed (fun b : Fin nbuf => b.val < next.size) (places next.buckets next.stage))
 (hashed : ∀ idx, ∀ b ∈ next.buckets idx, hash (next.block b) = idx)
 (distinct : ∀ block b other, next.Carries block b → next.Carries block other → b = other)
 (counted : ∀ b, next.refcnt b = next.holds b)
 (known : ∀ hold ∈ next.held, next.block hold.b = hold.block ∧ hold.b.val < next.size ∧
  ∀ pid, (next.stage pid).fresh ≠ some hold.b)
 (owns : Owns next.owner fun pid => (next.stage pid).locks hash)
 (lists : ∀ idx, .bucket idx ∉ (state.stage pid).locks hash →
  next.buckets idx = state.buckets idx ∧ ∀ b ∈ state.buckets idx, next.block b = state.block b)
 (size : state.size ≤ next.size)
 (absent : ∀ block, .hashlock ∉ (state.stage pid).locks hash → nbuf ≤ state.size →
  state.Absent block → next.Absent block)
 (held : ∀ hold ∈ state.held, hold.pid ≠ pid → hold ∈ next.held)
 (mine : stage.Good hash next pid) : next.Consistent hash where
 placed := placed
 hashed := hashed
 distinct := distinct
 counted := counted
 known := known
 owns := owns
 good other := by
  rw [moved]
  by_cases me : other = pid
  · rw [me, update_self]
    exact mine
  · rw [update_of_ne me]
    have exclusive {lock : Lock} (theirs : lock ∈ (state.stage other).locks hash) :
     lock ∉ (state.stage pid).locks hash :=
     fun here => me (consistent.owns.exclusive theirs here)
    refine (consistent.good other).frame (fun idx locked => lists idx (exclusive locked)) size
     (fun block locked => absent block (exclusive locked)) ?_
    simp_all

theorem places_of_same (same : stage.carries = (state.stage pid).carries) :
 places state.buckets (Function.update state.stage pid stage) =
  places state.buckets state.stage := by
 funext place
 cases place with
 | inl idx => rfl
 | inr other =>
  by_cases me : other = pid
  · subst me
    simp [places, hand, same]
  · simp [places, update_of_ne me]

theorem carries_of_same (moved : next.stage = Function.update state.stage pid stage)
 (same : stage.carries = (state.stage pid).carries) (buckets : next.buckets = state.buckets)
 (blocks : next.block = state.block) : next.Carries = state.Carries := by
 funext block b
 unfold Carries
 rw [moved, buckets, blocks]
 congr 1
 apply propext
 apply exists_congr
 intro other
 by_cases me : other = pid
 · rw [me, update_self, same]
 · rw [update_of_ne me]

theorem absent_of_same (moved : next.stage = Function.update state.stage pid stage)
 (same : stage.carries = (state.stage pid).carries) (buckets : next.buckets = state.buckets)
 (blocks : next.block = state.block) (none : state.Absent block) : next.Absent block := by
 unfold Absent
 rw [carries_of_same moved same buckets blocks]
 exact none

theorem fresh_of_moved (known : (state.stage pid).fresh ≠ some b →
 stage.fresh ≠ some b) (others : ∀ other, (state.stage other).fresh ≠ some b) (other : Pid) :
 (Function.update state.stage pid stage other).fresh ≠ some b := by
 by_cases me : other = pid
 · simp_all
 · rw [update_of_ne me]
   exact others other

theorem Consistent.touch (consistent : state.Consistent hash)
 (moved : next.stage = Function.update state.stage pid stage) (size : next.size = state.size)
 (blocks : next.block = state.block) (buckets : next.buckets = state.buckets)
 (carries : stage.carries = (state.stage pid).carries)
 (fresh : stage.fresh = (state.stage pid).fresh)
 (counted : ∀ b, next.refcnt b = next.holds b)
 (known : ∀ hold ∈ next.held, state.block hold.b = hold.block ∧ hold.b.val < state.size ∧
  ∀ pid, (state.stage pid).fresh ≠ some hold.b)
 (owns : Owns next.owner fun other =>
  (Function.update state.stage pid stage other).locks hash)
 (held : ∀ hold ∈ state.held, hold.pid ≠ pid → hold ∈ next.held)
 (mine : stage.Good hash next pid) : next.Consistent hash := by
 have same : next.Carries = state.Carries := carries_of_same moved carries buckets blocks
 refine consistent.update moved ?_ ?_ ?_ counted ?_ ?_ ?_ (Nat.le_of_eq size.symm) ?_ held mine
 · rw [size, buckets, moved, places_of_same carries]
   exact consistent.placed
 · rw [buckets, blocks]
   exact consistent.hashed
 · rw [same]
   exact consistent.distinct
 · rw [moved, blocks, size]
   grind
 · rw [moved]
   exact owns
 · simp_all
 · exact fun block _ _ none => absent_of_same moved carries buckets blocks none

theorem Consistent.go {owner : Lock → Option Pid} {sleeper : Fin nbuf → Option Pid}
 (consistent : state.Consistent hash) (carries : stage.carries = (state.stage pid).carries)
 (fresh : stage.fresh = (state.stage pid).fresh)
 (owns : Owns owner fun other => (Function.update state.stage pid stage other).locks hash)
 (mine : stage.Good hash state pid) :
 ({ state with
  owner := owner
  sleeper := sleeper
  stage := Function.update state.stage pid stage } : State nbuf Pid).Consistent hash := by
 refine consistent.touch rfl rfl rfl rfl carries fresh consistent.counted consistent.known owns
  (fun _ member _ => member) ?_
 refine mine.frame (fun _ _ => ⟨rfl, fun _ _ => rfl⟩) (Nat.le_refl _) ?_ fun _ member _ => member
 exact fun block _ _ none => absent_of_same rfl carries rfl rfl none

/-! ### Holds -/

omit [DecidableEq Pid] in
theorem holds_eq_zero : state.holds b = 0 ↔ ∀ hold ∈ state.held, hold.b ≠ b := by
 simp [holds, countP_eq_zero]

section

variable (counted : ∀ b, state.refcnt b = state.holds b)
include counted

omit [DecidableEq Pid] in
theorem refcnt_hold {hold : Hold nbuf Pid} (b : Fin nbuf) :
 (state.hold hold).refcnt b = (state.hold hold).holds b := by
 have before := counted b
 unfold holds at before ⊢
 simp only [State.hold, countP_cons, decide_eq_true_eq]
 by_cases same : hold.b = b
 · subst same
   simp [before]
 · grind

theorem refcnt_drop {hold : Hold nbuf Pid} (member : hold ∈ state.held) (b : Fin nbuf) :
 (state.drop hold).refcnt b = (state.drop hold).holds b := by
 have before := counted b
 unfold holds at before ⊢
 rw [(perm_cons_erase member).countP_eq, countP_cons] at before
 simp only [drop]
 by_cases same : hold.b = b
 · subst same
   simp [before]
 · simpa [update_of_ne (Ne.symm same), same] using before

omit [DecidableEq Pid] in
theorem refcnt_identify {hold : Hold nbuf Pid} (unheld : ∀ other ∈ state.held, other.b ≠ hold.b)
 (b : Fin nbuf) : (state.identify hold).refcnt b = (state.identify hold).holds b := by
 have before := counted b
 unfold holds at before ⊢
 simp only [identify, countP_cons, decide_eq_true_eq]
 by_cases same : hold.b = b
 · subst same
   have none := holds_eq_zero.mpr unheld
   unfold holds at none
   simp [none]
 · grind

end

section

variable (consistent : state.Consistent hash)
include consistent

theorem Consistent.hold (here : state.stage pid = before) (carries : stage.carries = before.carries)
 (fresh : stage.fresh = before.fresh) (locks : stage.locks hash = before.locks hash)
 (isBlock : state.block b = block) (within : b.val < state.size)
 (used : ∀ other, (state.stage other).fresh ≠ some b)
 (mine : stage.Good hash ((state.hold ⟨pid, block, b⟩).move pid stage) pid) :
 ((state.hold ⟨pid, block, b⟩).move pid stage).Consistent hash := by
 subst here
 refine consistent.touch rfl rfl rfl rfl carries fresh (refcnt_hold consistent.counted) ?_
  (consistent.owns.stay locks) (fun _ member _ => mem_cons_of_mem _ member) mine
 intro hold member
 rcases mem_cons.mp member with new | old
 · rw [new]
   exact ⟨isBlock, within, used⟩
 · exact consistent.known hold old

theorem Consistent.drop {timestamp : Fin nbuf → UInt32} (here : state.stage pid = before)
 (carries : stage.carries = before.carries) (fresh : stage.fresh = before.fresh)
 (locks : stage.locks hash = before.locks hash) (member : ⟨pid, block, b⟩ ∈ state.held)
 (mine : stage.Good hash ({ state.drop ⟨pid, block, b⟩ with
  timestamp := timestamp }.move pid stage) pid) :
 ({ state.drop ⟨pid, block, b⟩ with timestamp := timestamp }.move pid stage).Consistent
  hash := by
 subst here
 refine consistent.touch rfl rfl rfl rfl carries fresh
  (refcnt_drop consistent.counted member) ?_ (consistent.owns.stay locks) ?_ mine
 · exact fun hold inside => consistent.known hold (mem_of_mem_erase inside)
 · intro hold inside other
   refine (mem_erase_of_ne fun same => other ?_).mpr inside
   rw [same]

/-! ### Buffers move -/

omit [DecidableEq Pid] in
theorem Consistent.linked {idx : Fin numBuckets} (inside : b ∈ state.buckets idx) :
 b.val < state.size ∧ ∀ other, (state.stage other).fresh ≠ some b := by
 refine ⟨consistent.placed.known (.inl idx) b inside, fun other fresh => ?_⟩
 have inHand : b ∈ (state.stage other).hand := mem_hand_of_fresh fresh
 have same : inl idx = inr other := consistent.placed.same inside inHand
 cases same

omit [DecidableEq Pid] in
theorem Consistent.carried (mine : (state.stage pid).carries = some (block, b)) :
 b.val < state.size ∧ (∀ idx, b ∉ state.buckets idx) ∧
  ∀ other, b ∈ (state.stage other).hand → other = pid := by
 have inHand : b ∈ (state.stage pid).hand := mem_hand.mpr ⟨block, mine⟩
 refine ⟨consistent.placed.known (.inr pid) b inHand, fun idx inside => ?_,
  fun other theirs => ?_⟩
 · have same : inl idx = inr pid := consistent.placed.same inside inHand
   cases same
 · have same : inr other = inr pid := consistent.placed.same theirs inHand
   exact inr.inj same

end

theorem places_move (buckets : Fin numBuckets → List (Fin nbuf)) :
 places buckets (Function.update state.stage pid stage) =
  Function.update (places buckets state.stage) (.inr pid) stage.hand := by
 unfold places
 grind

theorem places_bucket (stages : Pid → Stage nbuf) {idx : Fin numBuckets}
 {list : List (Fin nbuf)} :
 places (Function.update state.buckets idx list) stages =
  Function.update (places state.buckets stages) (.inl idx) list :=
 elim_update_left _ _ _ _

theorem carries_cases (moved : next.stage = Function.update state.stage pid stage)
 (carried : next.Carries block b) : (∃ idx, b ∈ next.buckets idx ∧ next.block b = block) ∨
  stage.carries = some (block, b) ∨
   ∃ other ≠ pid, (state.stage other).carries = some (block, b) := by
 rcases carried with linked | ⟨other, inHand⟩
 · exact .inl linked
 · rw [moved] at inHand
   by_cases me : other = pid
   · simp_all
   · grind

section

variable (consistent : state.Consistent hash)
include consistent

omit [DecidableEq Pid] in
theorem Consistent.distinct_new (new : ∀ other item, next.Carries other item →
  state.Carries other item ∨ other = block ∧ item = b) (absent : state.Absent block) (other : Block)
 (left right : Fin nbuf) (isLeft : next.Carries other left) (isRight : next.Carries other right) :
 left = right := by
 rcases new other left isLeft with oldLeft | ⟨same, newLeft⟩
 · rcases new other right isRight with oldRight | ⟨same, -⟩
   · exact consistent.distinct other left right oldLeft oldRight
   · exact absurd (same ▸ oldLeft) (absent left)
 · rcases new other right isRight with oldRight | ⟨-, newRight⟩
   · exact absurd (same ▸ oldRight) (absent right)
   · rw [newLeft, newRight]

omit [DecidableEq Pid] in
theorem Consistent.absent (empty : (state.stage pid).carries = none)
 (locked : .bucket (hash block) ∈ (state.stage pid).locks hash)
 (searched : ∀ b ∈ state.buckets (hash block), state.block b ≠ block)
 (alone : ∀ other ≠ pid, .hashlock ∈ (state.stage other).locks hash → ¬ nbuf ≤ state.size) :
 state.Absent block := by
 rintro b (⟨idx, inside, isBlock⟩ | ⟨other, inHand⟩)
 · have here : hash block = idx := by
    rw [← isBlock]
    exact consistent.hashed idx b inside
   exact searched b (here ▸ inside) isBlock
 · have me : other ≠ pid := by
    intro same
    rw [same, empty] at inHand
    cases inHand
   have good := consistent.good other
   have notMine (theirs : .bucket (hash block) ∈ (state.stage other).locks hash) : False :=
    me (consistent.owns.exclusive theirs locked)
   have notVictim := alone other me
   cases stage : state.stage other with
   | taken | filling =>
    rw [stage] at inHand notMine
    cases inHand
    exact notMine mem_cons_self
   | moving | relinking | linking =>
    rw [stage] at good notVictim
    exact notVictim mem_cons_self good.1
   | _ =>
    rw [stage] at inHand
    cases inHand

theorem Consistent.take (sizing : state.stage pid = .sizing block) (within : state.size < nbuf) :
 ({ state with size := state.size + 1 }.move pid
  (.taken block ⟨state.size, within⟩)).Consistent hash := by
 have searched := consistent.good pid
 rw [sizing] at searched
 have absent : state.Absent block := by
  refine consistent.absent (by rw [sizing]; rfl) ?_ searched
   fun _ _ _ full => absurd within (Nat.not_lt.mpr full)
  rw [sizing]
  exact mem_cons_self
 have new : ∀ other item, ({ state with size := state.size + 1 }.move pid
  (.taken block ⟨state.size, within⟩)).Carries other item →
   state.Carries other item ∨ other = block ∧ item = ⟨state.size, within⟩ := by
  intro other item carried
  rcases carries_cases rfl carried with linked | mine | ⟨thread, -, inHand⟩
  · exact .inl (.inl linked)
  · cases mine
    exact .inr ⟨rfl, rfl⟩
  · exact .inl (.inr ⟨thread, inHand⟩)
 refine consistent.update rfl ?_ consistent.hashed (consistent.distinct_new new absent)
  consistent.counted ?_ (consistent.owns.stay (by rw [sizing]; rfl))
  (fun _ _ => ⟨rfl, fun _ _ => rfl⟩) (Nat.le_succ _)
  (fun _ _ full => absurd within (Nat.not_lt.mpr full)) (fun _ member _ => member) trivial
 · have empty : places state.buckets state.stage (.inr pid) = [] := by
    simp [places, sizing, hand, carries]
   have added := consistent.placed.add (Nat.lt_irrefl state.size)
    (List.Perm.refl (⟨state.size, within⟩ :: places state.buckets state.stage (.inr pid)))
   have items : (fun b : Fin nbuf => b.val < state.size ∨ b = ⟨state.size, within⟩) =
    fun b => b.val < state.size + 1 := by
    funext b
    rw [Fin.ext_iff, Nat.lt_succ_iff_lt_or_eq]
   rw [items, empty] at added
   change Placed _ (places state.buckets (Function.update state.stage pid _))
   rw [places_move]
   exact added
 · intro hold member
   obtain ⟨isBlock, old, others⟩ := consistent.known hold member
   refine ⟨isBlock, Nat.lt_succ_of_lt old, fresh_of_moved (fun _ same => ?_) others⟩
   have isNew : state.size = hold.b.val := congrArg Fin.val (some.inj same)
   omega

end

theorem fresh_update (unfresh : stage.fresh = none)
 (others : ∀ other ≠ pid, (state.stage other).fresh ≠ some b) (other : Pid) :
 (Function.update state.stage pid stage other).fresh ≠ some b := by
 by_cases me : other = pid
 · rw [me, update_self, unfresh]
   exact nofun
 · rw [update_of_ne me]
   exact others other me

section

variable (consistent : state.Consistent hash)
include consistent

theorem Consistent.link (mine : (state.stage pid).carries = some (block, b))
 (put : stage.carries = none) (unfresh : stage.fresh = none)
 (moved : next.stage = Function.update state.stage pid stage) (size : next.size = state.size)
 (buckets : next.buckets =
  Function.update state.buckets (hash block) (b :: state.buckets (hash block)))
 (isBlock : next.block b = block) (blocks : ∀ other ≠ b, next.block other = state.block other)
 (counted : ∀ b, next.refcnt b = next.holds b)
 (known : ∀ hold ∈ next.held, next.block hold.b = hold.block ∧ hold.b.val < state.size ∧
  ∀ other ≠ pid, (state.stage other).fresh ≠ some hold.b) (owner : next.owner = state.owner)
 (locks : stage.locks hash = (state.stage pid).locks hash)
 (locked : .bucket (hash block) ∈ (state.stage pid).locks hash)
 (held : ∀ hold ∈ state.held, hold.pid ≠ pid → hold ∈ next.held) (good : stage.Good hash next pid) :
 next.Consistent hash := by
 obtain ⟨within, unlinked, alone⟩ := consistent.carried mine
 have kept {idx : Fin numBuckets} {other : Fin nbuf} (inside : other ∈ state.buckets idx) :
  next.block other = state.block other :=
  blocks other fun same => unlinked idx (same ▸ inside)
 have inBucket {idx : Fin numBuckets} {other : Fin nbuf} (inside : other ∈ next.buckets idx) :
  (idx = hash block ∧ other = b) ∨ other ∈ state.buckets idx := by
  rw [buckets] at inside
  by_cases here : idx = hash block
  · simp_all
  · simp_all
 have old (other : Block) (item : Fin nbuf) (carried : next.Carries other item) :
  state.Carries other item := by
  rcases carries_cases moved carried with ⟨idx, inside, same⟩ | here | ⟨thread, -, inHand⟩
  · rcases inBucket inside with ⟨-, rfl⟩ | before
    · rw [← same, isBlock]
      exact .inr ⟨pid, mine⟩
    · exact .inl ⟨idx, before, (kept before).symm.trans same⟩
  · rw [put] at here
    cases here
  · exact .inr ⟨thread, inHand⟩
 refine consistent.update moved ?_ ?_ ?_ counted ?_ ?_ ?_ (Nat.le_of_eq size.symm) ?_ held good
 · have source : (places state.buckets state.stage (.inr pid)).Perm (b :: stage.hand) := by
    simp [places, hand, mine, put]
   have placed := consistent.placed.move inr_ne_inl source
    (List.Perm.refl (b :: places state.buckets state.stage (.inl (hash block))))
   rw [size, buckets, moved, places_bucket, places_move]
   exact placed
 · intro idx other inside
   rcases inBucket inside with ⟨rfl, rfl⟩ | before
   · rw [isBlock]
   · rw [kept before]
     exact consistent.hashed idx other before
 · intro other left right isLeft isRight
   exact consistent.distinct other left right (old other left isLeft) (old other right isRight)
 · intro hold member
   obtain ⟨same, inArray, others⟩ := known hold member
   refine ⟨same, size ▸ inArray, fun other => ?_⟩
   rw [moved]
   exact fresh_update unfresh others other
 · rw [owner, moved]
   exact consistent.owns.stay locks
 · intro idx unlocked
   rw [buckets, update_of_ne]
   · grind
   · exact fun same => unlocked (same ▸ locked)
 · exact fun other _ _ none item carried => none item (old other item carried)

omit [DecidableEq Pid] in
theorem Consistent.known_identify (unheld : ∀ hold ∈ state.held, hold.b ≠ b)
 (within : b.val < state.size) (alone : ∀ other ≠ pid, (state.stage other).fresh ≠ some b)
 (hold : Hold nbuf Pid) (member : hold ∈ (⟨pid, block, b⟩ : Hold nbuf Pid) :: state.held) :
 Function.update state.block b block hold.b = hold.block ∧ hold.b.val < state.size ∧
  ∀ other ≠ pid, (state.stage other).fresh ≠ some hold.b := by
 rcases mem_cons.mp member with new | old
 · simp_all
 · obtain ⟨isBlock, inArray, others⟩ := consistent.known hold old
   simp_all

omit [DecidableEq Pid] in
theorem Consistent.unheld_of_fresh (isFresh : (state.stage pid).fresh = some b) :
 ∀ hold ∈ state.held, hold.b ≠ b :=
 fun hold member same => (consistent.known hold member).2.2 pid (same ▸ isFresh)

theorem Consistent.fill (filling : state.stage pid = .filling block b) :
 (((state.identify ⟨pid, block, b⟩).link (hash block) b).move pid
  (.found block b)).Consistent hash := by
 have mine : (state.stage pid).carries = some (block, b) := by rw [filling]; rfl
 have isFresh : (state.stage pid).fresh = some b := by rw [filling]; rfl
 obtain ⟨within, -, alone⟩ := consistent.carried mine
 have unheld := consistent.unheld_of_fresh isFresh
 have isBlock : Function.update state.block b block b = block := update_self _ _ _
 have blocks (other : Fin nbuf) (different : other ≠ b) :
  Function.update state.block b block other = state.block other :=
  update_of_ne different _ _
 refine consistent.link mine rfl rfl rfl rfl rfl isBlock blocks
  (refcnt_identify consistent.counted unheld) ?_ rfl (by rw [filling]; rfl) ?_
  (fun _ member _ => mem_cons_of_mem _ member) mem_cons_self
 · refine consistent.known_identify unheld within fun other me fresh => me ?_
   exact alone other (mem_hand_of_fresh fresh)
 · rw [filling]
   exact mem_cons_self

theorem Consistent.relink (linking : state.stage pid = .linking block b) :
 ((state.link (hash block) b).move pid (.reused block b)).Consistent hash := by
 have mine : (state.stage pid).carries = some (block, b) := by rw [linking]; rfl
 have good := consistent.good pid
 rw [linking] at good
 refine consistent.link mine rfl rfl rfl rfl rfl (consistent.known _ good.2).1
  (fun _ _ => rfl) consistent.counted ?_ rfl (by rw [linking]; rfl) ?_
  (fun _ member _ => member) good.2
 · intro hold member
   obtain ⟨isBlock, within, others⟩ := consistent.known hold member
   exact ⟨isBlock, within, fun other _ => others other⟩
 · rw [linking]
   exact mem_cons_of_mem _ mem_cons_self

end

/-! ### Victims -/

section Victims

variable {idx : Fin numBuckets} {i : ℕ}

variable (consistent : state.Consistent hash)
include consistent

variable (scanning : state.stage pid = .scanning block idx i)
include scanning

omit [DecidableEq Pid] in
theorem Consistent.absent_of_scanned
 (searched : idx = hash block → ∀ b ∈ state.buckets idx, state.block b ≠ block) :
 state.Absent block := by
 have good := consistent.good pid
 rw [scanning] at good
 by_cases own : idx = hash block
 · refine consistent.absent (by rw [scanning]; rfl) ?_ (own ▸ searched own) ?_
   · rw [scanning, own]
     exact mem_cons_of_mem _ mem_cons_self
   · intro other me locked
     refine absurd (consistent.owns.exclusive locked ?_) me
     rw [scanning]
     exact mem_cons_self
 · exact good.2 own

theorem Consistent.victim
 (searched : idx = hash block → ∀ b ∈ state.buckets idx, state.block b ≠ block)
 (inside : b ∈ state.buckets idx) (unused : state.refcnt b = 0)
 (moved : next.stage = Function.update state.stage pid stage) (size : next.size = state.size)
 (owner : next.owner = state.owner) (blocks : next.block = Function.update state.block b block)
 (refcnt : next.refcnt = (state.identify ⟨pid, block, b⟩).refcnt)
 (held : next.held = ⟨pid, block, b⟩ :: state.held)
 (placed : Placed (fun b : Fin nbuf => b.val < state.size) (places next.buckets next.stage))
 (buckets : ∀ place, ∀ other ∈ next.buckets place, other ∈ state.buckets place ∧
  (other = b → place = hash block))
 (elsewhere : ∀ place ≠ idx, next.buckets place = state.buckets place)
 (carries : ∀ pair, stage.carries = some pair → pair = (block, b)) (unfresh : stage.fresh = none)
 (locks : stage.locks hash = (state.stage pid).locks hash) (good : stage.Good hash next pid) :
 next.Consistent hash := by
 obtain ⟨within, used⟩ := consistent.linked inside
 have unheld : ∀ hold ∈ state.held, hold.b ≠ b := by
  rw [← holds_eq_zero]
  have counted := consistent.counted b
  rw [unused] at counted
  exact Int.ofNat_eq_zero.mp counted.symm
 have kept {other : Fin nbuf} (different : other ≠ b) : next.block other = state.block other := by
  rw [blocks, update_of_ne different]
 have isBlock : next.block b = block := by rw [blocks, update_self]
 have new (other : Block) (item : Fin nbuf) (carried : next.Carries other item) :
  state.Carries other item ∨ other = block ∧ item = b := by
  rcases carries_cases moved carried with ⟨place, linked, same⟩ | mine | ⟨thread, -, inHand⟩
  · by_cases here : item = b
    · grind
    · exact .inl (.inl ⟨place, (buckets place item linked).1, (kept here).symm.trans same⟩)
  · simp_all
  · exact .inl (.inr ⟨thread, inHand⟩)
 have locked : .hashlock ∈ (state.stage pid).locks hash ∧
  .bucket idx ∈ (state.stage pid).locks hash := by
  rw [scanning]
  exact ⟨mem_cons_self, mem_cons_of_mem _ mem_cons_self⟩
 refine consistent.update moved (size ▸ placed) ?_
  (consistent.distinct_new new (consistent.absent_of_scanned scanning searched)) ?_ ?_ ?_ ?_
  (Nat.le_of_eq size.symm) (fun _ unlocked => absurd locked.1 unlocked) ?_ good
 · intro place other linked
   obtain ⟨before, here⟩ := buckets place other linked
   by_cases same : other = b
   · rw [same, isBlock, here same]
   · rw [kept same]
     exact consistent.hashed place other before
 · have counted : ∀ item, (state.identify ⟨pid, block, b⟩).refcnt item =
    (state.identify ⟨pid, block, b⟩).holds item := refcnt_identify consistent.counted unheld
   unfold holds at counted ⊢
   rw [refcnt, held]
   exact counted
 · intro hold member
   rw [held] at member
   obtain ⟨same, inArray, others⟩ :=
    consistent.known_identify unheld within (fun other _ => used other) hold member
   refine ⟨blocks ▸ same, size ▸ inArray, fun other => ?_⟩
   rw [moved]
   exact fresh_update unfresh others other
 · rw [owner, moved]
   exact consistent.owns.stay locks
 · intro place unlocked
   have other : place ≠ idx := fun same => unlocked (same ▸ locked.2)
   refine ⟨elsewhere place other, fun item linked => kept fun same => other ?_⟩
   have here : inl place = inl idx := consistent.placed.same (same ▸ linked) inside
   exact inl.inj here
 · grind

theorem Consistent.reuse (own : idx = hash block)
 (searched : ∀ b ∈ state.buckets idx, state.block b ≠ block) (inside : b ∈ state.buckets idx)
 (unused : state.refcnt b = 0) :
 ((state.identify ⟨pid, block, b⟩).move pid (.reused block b)).Consistent hash := by
 refine consistent.victim scanning (fun _ => searched) inside unused rfl rfl rfl rfl rfl rfl ?_
  ?_ (fun _ _ => rfl) nofun rfl (by rw [scanning, own]; rfl) mem_cons_self
 · change Placed _ (places state.buckets (Function.update state.stage pid _))
   rw [places_of_same (by rw [scanning]; rfl)]
   exact consistent.placed
 · refine fun place other linked => ⟨linked, fun same => ?_⟩
   have here : inl place = inl idx := consistent.placed.same (same ▸ linked) inside
   exact (inl.inj here).trans own

theorem Consistent.steal (other : idx ≠ hash block) (inside : b ∈ state.buckets idx)
 (unused : state.refcnt b = 0) :
 (((state.identify ⟨pid, block, b⟩).unlink idx b).move pid
  (.moving block idx b)).Consistent hash := by
 have good := consistent.good pid
 rw [scanning] at good
 refine consistent.victim scanning (fun own => absurd own other) inside unused rfl rfl rfl rfl
  rfl rfl ?_ ?_ ?_ (fun pair same => (some.inj same).symm) rfl (by rw [scanning]; rfl)
  ⟨good.1, mem_cons_self⟩
 · have target : ([b] : List (Fin nbuf)).Perm
    (b :: places state.buckets state.stage (.inr pid)) := by
    simp [places, scanning, hand, carries]
   have placed := consistent.placed.move inl_ne_inr
    (perm_cons_erase inside) target
   change Placed _ (places (Function.update state.buckets idx _)
    (Function.update state.stage pid _))
   rw [places_move, places_bucket]
   exact placed
 · intro place item linked
   change item ∈ Function.update state.buckets idx ((state.buckets idx).erase b) place at linked
   by_cases here : place = idx
   · subst here
     rw [update_self] at linked
     refine ⟨mem_of_mem_erase linked, fun same => ?_⟩
     have nodup := consistent.placed.nodup (.inl place)
     exact absurd (same ▸ linked) nodup.not_mem_erase
   · rw [update_of_ne here] at linked
     have before : item ∈ state.buckets place := linked
     refine ⟨before, fun same => absurd ?_ here⟩
     have atIdx : inl place = inl idx := consistent.placed.same (same ▸ before) inside
     exact inl.inj atIdx
 · exact fun place different => update_of_ne different _ _

end Victims

/-! ### Steps -/

section Steps

variable {lock : Lock} {ticks : UInt32}

section

variable (consistent : state.Consistent hash)
include consistent

theorem Consistent.acquire (here : state.stage pid = before) (free : state.owner lock = none)
 (carries : stage.carries = before.carries) (fresh : stage.fresh = before.fresh)
 (mine : ∀ other, other ∈ stage.locks hash ↔ other = lock ∨ other ∈ before.locks hash)
 (good : stage.Good hash state pid) :
 ((state.acquire lock pid).move pid stage).Consistent hash := by
 subst here
 exact consistent.go carries fresh (consistent.owns.enter free mine) good

theorem Consistent.release (here : state.stage pid = before) (held : lock ∈ before.locks hash)
 (carries : stage.carries = before.carries) (fresh : stage.fresh = before.fresh)
 (mine : ∀ other, other ∈ stage.locks hash ↔ other ≠ lock ∧ other ∈ before.locks hash)
 (good : stage.Good hash state pid) : ((state.release lock).move pid stage).Consistent hash := by
 subst here
 exact consistent.go carries fresh (consistent.owns.leave held mine) good

theorem Consistent.proceed {sleeper : Fin nbuf → Option Pid} (here : state.stage pid = before)
 (carries : stage.carries = before.carries) (fresh : stage.fresh = before.fresh)
 (locks : stage.locks hash = before.locks hash) (good : stage.Good hash state pid) :
 ({ state with sleeper := sleeper }.move pid stage).Consistent hash := by
 subst here
 exact consistent.go carries fresh (consistent.owns.stay locks) good

end

def Keeps (state next : State nbuf Pid) : Prop :=
 ∀ b, 0 < state.refcnt b → next.block b = state.block b

omit [DecidableEq Pid] in
theorem keeps_of_unused (unused : state.refcnt b = 0)
 (blocks : next.block = Function.update state.block b block) : state.Keeps next := by
 intro other positive
 rw [blocks]
 grind

variable (consistent : state.Consistent hash)
include consistent

theorem Consistent.run_update {call : Call} {idx : Fin numBuckets}
 (updating : state.stage pid = .updating call block b idx) :
 ((state.update ⟨pid, block, b⟩ ticks call).move pid (.updated idx)).Consistent hash ∧
  state.Keeps ((state.update ⟨pid, block, b⟩ ticks call).move pid (.updated idx)) := by
 have good := consistent.good pid
 rw [updating] at good
 obtain ⟨isBlock, within, used⟩ := consistent.known _ good.1
 cases call with
 | brelse =>
  simp only [State.update]
  split
  · exact ⟨consistent.drop updating rfl rfl rfl good.1 trivial, fun _ _ => rfl⟩
  · exact ⟨consistent.drop updating rfl rfl rfl good.1 trivial, fun _ _ => rfl⟩
 | bpin =>
  exact ⟨consistent.hold updating rfl rfl rfl isBlock within used trivial, fun _ _ => rfl⟩
 | bunpin =>
  exact ⟨consistent.drop updating rfl rfl rfl good.1 trivial, fun _ _ => rfl⟩

theorem Consistent.run_scan {idx : Fin numBuckets} {i : ℕ}
 (scanning : state.stage pid = .scanning block idx i)
 (taken : state.run hash pid ticks = some next) :
 next.Consistent hash ∧ state.Keeps next := by
 have good := consistent.good pid
 rw [scanning] at good
 simp only [run, scanning] at taken
 cases scanned : state.scan block (idx = hash block) (state.buckets idx) none (-1) with
 | cached b =>
  obtain ⟨own, inside, isBlock⟩ := scan_cached scanned
  obtain ⟨within, used⟩ := consistent.linked inside
  rw [scanned] at taken
  cases taken
  rw [of_decide_eq_true own] at scanning
  exact ⟨consistent.hold scanning rfl rfl rfl isBlock within used mem_cons_self,
   fun _ _ => rfl⟩
 | least minb =>
  obtain ⟨searched, victim⟩ := scan_least scanned
  have absent (own : idx = hash block) : ∀ b ∈ state.buckets idx, state.block b ≠ block :=
   searched (decide_eq_true own)
  rw [scanned] at taken
  cases minb with
  | none =>
   cases taken
   have nowhere := consistent.absent_of_scanned scanning absent
   exact ⟨consistent.proceed scanning rfl rfl rfl ⟨good.1, nowhere⟩, fun _ _ => rfl⟩
  | some b =>
   obtain ⟨inside, unused⟩ := (victim b rfl).resolve_left nofun
   simp only at taken
   split at taken
   · rename_i own
     cases taken
     exact ⟨consistent.reuse scanning own (absent own) inside unused,
      keeps_of_unused unused rfl⟩
   · rename_i other
     cases taken
     exact ⟨consistent.steal scanning other inside unused, keeps_of_unused unused rfl⟩

theorem Consistent.run (taken : state.run hash pid ticks = some next) :
 next.Consistent hash ∧ state.Keeps next := by
 have good := consistent.good pid
 cases stage : state.stage pid with
 | scanning => exact consistent.run_scan stage taken
 | updating call block b idx =>
  simp only [State.run, stage] at taken
  cases taken
  exact consistent.run_update stage
 | idle | panicked =>
  simp only [State.run, stage] at taken
  cases taken
 | entering | notCached | relinking | locking =>
  rw [stage] at good
  simp only [State.run, stage] at taken
  split at taken
  · rename_i free
    cases taken
    refine ⟨consistent.acquire stage free rfl rfl ?_ good, fun _ _ => rfl⟩
    simp [locks, or_comm]
  · cases taken
 | evicting =>
  rw [stage] at good
  simp only [State.run, stage] at taken
  split at taken
  · rename_i free
    cases taken
    refine ⟨consistent.acquire stage free rfl rfl ?_ ⟨good, fun other => absurd rfl other⟩,
     fun _ _ => rfl⟩
    simp [locks]
  · cases taken
 | visiting =>
  rw [stage] at good
  simp only [State.run, stage] at taken
  split at taken
  · split at taken
    · rename_i free
      cases taken
      refine ⟨consistent.acquire stage free rfl rfl ?_ good, fun _ _ => rfl⟩
      simp [locks, or_comm]
    · cases taken
  · cases taken
    exact ⟨consistent.proceed stage rfl rfl rfl trivial, fun _ _ => rfl⟩
 | found | taken | full | leaving | moving | reused | ending | updated =>
  rw [stage] at good
  simp only [State.run, stage] at taken
  cases taken
  refine ⟨consistent.release stage ?_ rfl rfl ?_ good, fun _ _ => rfl⟩
  · simp [locks]
  · intro other
    grind [locks]
 | passing =>
  rw [stage] at good
  simp only [State.run, stage] at taken
  cases taken
  refine ⟨consistent.release stage ?_ rfl rfl ?_ ⟨good.1, fun _ => good.2⟩, fun _ _ => rfl⟩
  · simp [locks]
  · intro other
    grind [locks]
 | searching block =>
  simp only [State.run, stage] at taken
  cases found : (state.buckets (hash block)).find? fun b => state.block b = block with
  | some b =>
   rw [found] at taken
   cases taken
   obtain ⟨within, used⟩ := consistent.linked (mem_of_find?_eq_some found)
   have isBlock : state.block b = block := by simpa using List.find?_some found
   exact ⟨consistent.hold stage rfl rfl rfl isBlock within used mem_cons_self,
    fun _ _ => rfl⟩
  | none =>
   rw [found] at taken
   cases taken
   refine ⟨consistent.proceed stage rfl rfl rfl fun b inside => ?_, fun _ _ => rfl⟩
   simp_all
 | sizing block =>
  simp only [State.run, stage] at taken
  split at taken
  · rename_i within
    cases taken
    exact ⟨consistent.take stage within, fun _ _ => rfl⟩
  · rename_i full
    cases taken
    exact ⟨consistent.proceed stage rfl rfl rfl (Nat.le_of_not_lt full), fun _ _ => rfl⟩
 | filling block b =>
  simp only [State.run, stage] at taken
  cases taken
  have isFresh : (state.stage pid).fresh = some b := by
   rw [stage]
   rfl
  have unused : state.refcnt b = 0 := by
   rw [consistent.counted, Int.natCast_eq_zero, holds_eq_zero]
   exact consistent.unheld_of_fresh isFresh
  exact ⟨consistent.fill stage, keeps_of_unused unused rfl⟩
 | linking block b =>
  simp only [State.run, stage] at taken
  cases taken
  exact ⟨consistent.relink stage, fun _ _ => rfl⟩
 | sleeping =>
  simp only [State.run, stage] at taken
  split at taken
  · cases taken
    exact ⟨consistent.proceed stage rfl rfl rfl trivial, fun _ _ => rfl⟩
  · cases taken
 | releasing =>
  rw [stage] at good
  simp only [State.run, stage] at taken
  split at taken
  · cases taken
    exact ⟨consistent.proceed stage rfl rfl rfl good, fun _ _ => rfl⟩
  · cases taken
    exact ⟨consistent.proceed stage rfl rfl rfl trivial, fun _ _ => rfl⟩
 | indexing =>
  rw [stage] at good
  simp only [State.run, stage] at taken
  cases taken
  have own := congrArg hash (consistent.known _ good).1
  exact ⟨consistent.proceed stage rfl rfl rfl ⟨good, own⟩, fun _ _ => rfl⟩

theorem Consistent.pass {hold : Hold nbuf Pid} {target : Pid} (idle : state.stage hold.pid = .idle)
 (member : hold ∈ state.held) :
 ({ state with held := { hold with pid := target } :: state.held.erase hold } :
  State nbuf Pid).Consistent hash := by
 have same : Function.update state.stage hold.pid .idle = state.stage := by
  rw [← idle]
  exact update_eq_self _ _
 refine consistent.touch same.symm rfl rfl rfl (by rw [idle]) (by rw [idle]) ?_ ?_
  (by rw [same]; exact consistent.owns) ?_ trivial
 · intro b
   rw [consistent.counted b]
   unfold holds
   rw [(perm_cons_erase member).countP_eq, countP_cons, countP_cons]
 · intro other inside
   rcases mem_cons.mp inside with new | old
   · rw [new]
     exact consistent.known hold member
   · exact consistent.known other (mem_of_mem_erase old)
 · grind

theorem Consistent.step {event : Event nbuf Pid} (taken : state.step hash event = some next) :
 next.Consistent hash ∧ state.Keeps next := by
 cases event with
 | run pid ticks => exact consistent.run taken
 | bget pid block =>
  simp only [State.step] at taken
  split at taken
  · rename_i idle
    cases taken
    exact ⟨consistent.proceed idle rfl rfl rfl trivial, fun _ _ => rfl⟩
  · cases taken
 | call call hold =>
  simp only [State.step] at taken
  split at taken
  · rename_i idle
    split at taken
    · rename_i member
      cases call with
      | brelse | bpin | bunpin =>
       cases taken
       exact ⟨consistent.proceed idle rfl rfl rfl member, fun _ _ => rfl⟩
    · cases taken
  · cases taken
 | pass hold target =>
  simp only [State.step] at taken
  split at taken
  · rename_i idle
    split at taken
    · rename_i member
      cases taken
      exact ⟨consistent.pass idle member, fun _ _ => rfl⟩
    · cases taken
  · cases taken

end Steps

/-! ### Deadlock -/

def rank : Lock → ℕ
 | .hashlock => 0
 | .bucket _ => 1
 | .bcache => 2

omit [DecidableEq Pid] in
theorem Consistent.acyclic (consistent : state.Consistent hash) : Acyclic (state.waits hash) := by
 refine acyclic_of_rank rank fun {pid held wanted} owned want => ?_
 have locked : held ∈ (state.stage pid).locks hash := (consistent.owns pid held).mp owned
 cases stage : state.stage pid with
 | notCached | relinking =>
  rw [stage] at locked want
  rw [mem_singleton.mp locked, ← some.inj want]
  exact Nat.lt_succ_self _
 | visiting block idx i =>
  rw [stage] at locked want
  simp only [wants] at want
  split at want
  · rw [mem_singleton.mp locked, ← some.inj want]
    exact Nat.zero_lt_one
  · cases want
 | entering | evicting | locking =>
  rw [stage] at locked
  exact absurd locked not_mem_nil
 | _ =>
  rw [stage] at want
  cases want

/-! ### Runs -/

/-- One buffer for a block, each buffer in the bucket of its block, and a count for each
buffer that says who holds it. -/
structure Coherent (hash : Block → Fin numBuckets) (state : State nbuf Pid) : Prop where
 one : ∀ i j b other, b ∈ state.buckets i → other ∈ state.buckets j →
  state.block b = state.block other → b = other
 hashed : ∀ i, ∀ b ∈ state.buckets i, hash (state.block b) = i
 once : ∀ i, (state.buckets i).Nodup ∧ ∀ b ∈ state.buckets i, ∀ j, b ∈ state.buckets j → i = j
 counted : ∀ b, state.refcnt b = state.holds b
 held : ∀ hold ∈ state.held, state.block hold.b = hold.block
 returns : ∀ pid block b, state.stage pid = .sleeping block b → ⟨pid, block, b⟩ ∈ state.held

omit [DecidableEq Pid] in
theorem Consistent.coherent (consistent : state.Consistent hash) : state.Coherent hash where
 one i j b other inside otherInside same :=
  consistent.distinct (state.block b) b other (.inl ⟨i, inside, rfl⟩)
   (.inl ⟨j, otherInside, same.symm⟩)
 hashed := consistent.hashed
 once i := by
  refine ⟨consistent.placed.nodup (.inl i), fun b inside j there => ?_⟩
  have same : inl i = inl j := consistent.placed.same inside there
  exact inl.inj same
 counted := consistent.counted
 held hold member := (consistent.known hold member).1
 returns pid block b sleeping := by
  have good := consistent.good pid
  rw [sleeping] at good
  exact good

/-- In every run the cache holds a block once, a buffer that is held keeps its block, and no
processes wait for its locks in a cycle. -/
theorem bcache_coherent (hash : Block → Fin numBuckets) (events : List (Event nbuf Pid))
 (final : State nbuf Pid) (run : Run (ofFunction (State.step hash)) start events final) :
 final.Coherent hash ∧ Acyclic (final.waits hash) ∧
  ∀ event next, final.step hash event = some next →
   ∀ b, 0 < final.refcnt b → next.block b = final.block b := by
 have consistent : final.Consistent hash :=
  run.invariant start_consistent fun _ _ _ before taken => (before.step taken).1
 exact ⟨consistent.coherent, consistent.acyclic, fun event next taken =>
  (consistent.step taken).2⟩

/-- The block number modulo the number of buckets. -/
def blocknoHash (block : Block) : Fin numBuckets :=
 ⟨block.blockno.toNat % numBuckets, Nat.mod_lt _ (by decide)⟩

theorem bcache_coherent_two : ∃ final : State 1 Bool, final.buckets (blocknoHash ⟨1, 12⟩) = [0] ∧
 final.block 0 = ⟨1, 12⟩ ∧ final.Coherent blocknoHash ∧ Acyclic (final.waits blocknoHash) := by
 obtain ⟨final, same, bucket, block⟩ : ∃ final : State 1 Bool,
  replay (State.step blocknoHash) start
   (.bget false ⟨1, 0⟩ :: List.replicate 8 (.run false 5) ++
    .call .brelse ⟨false, ⟨1, 0⟩, 0⟩ :: List.replicate 5 (.run false 6) ++
    .bget true ⟨1, 12⟩ :: List.replicate 18 (.run true 7)) = some final ∧
   final.buckets (blocknoHash ⟨1, 12⟩) = [0] ∧ final.block 0 = ⟨1, 12⟩ := ⟨_, rfl, rfl, rfl⟩
 obtain ⟨coherent, acyclic, -⟩ :=
  bcache_coherent blocknoHash _ final (Run.of_replay_all same)
 grind

end State

end MyNotes.Xv6.Bcache
