/-
Ownership of pins by page guards.

`BasicPageGuard::Drop` never unpins: it does nothing for a guard that holds a page, and
goes through a null pointer for an empty one.  So a page whose guard is dropped,
destroyed or overwritten is lost, and stays so.
-/

import MyNotes.Cmu15445.PageGuard

namespace MyNotes.Cmu15445

open Library.Transition Function List Option BasicPageGuard

/-! ### One guard -/

theorem BasicPageGuard.drop_eq_none {self : BasicPageGuard} {log : PageLog} :
 self.drop log = none ↔ self.bpm = false ∧ self.page = none := by
 unfold drop
 by_cases unset : self.bpm = false ∧ self.page = none
 · rw [if_pos unset, unset.2]
   exact ⟨fun _ => ⟨unset.1, rfl⟩, fun _ => rfl⟩
 · grind

theorem BasicPageGuard.drop_some {self result : BasicPageGuard} {log after : PageLog}
 (dropped : self.drop log = some (result, after)) :
 after = log ∧ result.bpm = false ∧ result.page = none := by
 unfold drop at dropped
 by_cases unset : self.bpm = false ∧ self.page = none
 · rw [if_pos unset, unset.2] at dropped
   cases dropped
 · grind

def BasicPageGuard.Idle (self : BasicPageGuard) : Prop := self.bpm = true ∧ self.page = none

def PageRecord.isPin : PageRecord → Bool
 | .acquired _ => true
 | .unpinned _ _ => true
 | _ => false

def pinRecords (log : PageLog) : PageLog := log.filter PageRecord.isPin

theorem pinRecords_unlatch (guard : BasicPageGuard) (latch : Latch) (log : PageLog) :
 pinRecords (unlatch guard latch log) = pinRecords log := by
 unfold unlatch
 split <;> rfl

theorem pinRecords_latch (page : Option PagePtr) (latch : Latch) (log : PageLog) :
 pinRecords (BasicPageGuard.latch page latch log) = pinRecords log := by
 unfold BasicPageGuard.latch
 split <;> rfl

namespace PageGuard

variable {self : PageGuard} {log after : PageLog} {result : BasicPageGuard}

theorem drop_eq_none : self.drop log = none ↔ self.guard.bpm = false ∧ self.guard.page = none := by
 unfold drop
 split
 · exact BasicPageGuard.drop_eq_none
 · exact BasicPageGuard.drop_eq_none
 · exact BasicPageGuard.drop_eq_none

theorem drop_basic (kind : self.kind = .basic)
 (dropped : self.guard.drop log = some (result, after)) :
 self.drop log = some (result, after) := by
 unfold drop
 rw [kind]
 exact dropped

theorem drop_some (dropped : self.drop log = some (result, after)) :
 pinRecords after = pinRecords log ∧ result.bpm = false ∧ result.page = none := by
 unfold drop at dropped
 split at dropped
 · obtain ⟨same, rest⟩ := BasicPageGuard.drop_some dropped
   exact ⟨congrArg pinRecords same, rest⟩
 · obtain ⟨same, rest⟩ := BasicPageGuard.drop_some dropped
   rw [same]
   exact ⟨pinRecords_unlatch .., rest⟩
 · obtain ⟨same, rest⟩ := BasicPageGuard.drop_some dropped
   rw [same]
   exact ⟨pinRecords_unlatch .., rest⟩

theorem idle_iff (dropped : self.drop log = some (result, after)) :
 self.guard.Idle ↔ self.guard.page = none := by
 constructor
 · exact fun idle => idle.2
 · intro free
   refine ⟨?_, free⟩
   cases set : self.guard.bpm with
   | true => rfl
   | false =>
    rw [drop_eq_none.mpr ⟨set, free⟩] at dropped
    cases dropped

theorem not_idle_of_drop (dropped : self.drop log = none) : ¬ self.guard.Idle := by
 intro idle
 have unset := (drop_eq_none.mp dropped).1
 rw [idle.1] at unset
 cases unset

theorem drop_again {α : Type} (use : BasicPageGuard × PageLog → α) :
 ((self.drop log).bind fun result => (result.1.drop result.2).map use) = none := by
 cases dropped : self.drop log with
 | none => rfl
 | some both =>
  obtain ⟨result, after⟩ := both
  change (result.drop after).map use = none
  rw [BasicPageGuard.drop_eq_none.mpr (drop_some dropped).2]
  rfl

end PageGuard

namespace GuardProgram

/-- No `BasicPageGuard::Drop` of the action meets a guard that holds a page or is empty. -/
def Harmless (self : GuardProgram) : GuardAction → Prop
 | .moveConstruct _ source => ∀ that ∈ self.guards source, that.kind = .basic
 | .moveAssign id source => ∀ guard ∈ self.guards id,
  (id = source ∧ guard.kind = .basic) ∨
   (guard.guard.Idle ∧ (id = source ∨ guard.kind = .basic))
 | .drop id => ∀ guard ∈ self.guards id, guard.guard.Idle
 | .destroy id => ∀ guard ∈ self.guards id, guard.kind = .basic ∧ guard.guard.Idle
 | _ => True

def held (self : GuardProgram) (id : GuardId) : Option PagePtr :=
 (self.guards id).bind fun guard => guard.guard.page

variable {id : GuardId} {guard : PageGuard} {self : GuardProgram}

theorem held_eq (present : self.guards id = some guard) : self.held id = guard.guard.page := by
 unfold held
 rw [present]
 rfl

theorem held_none (free : self.guards id = none) : self.held id = none := by
 unfold held
 rw [free]
 rfl

variable {source : GuardId} {that : PageGuard}

theorem ne_of_free (free : self.guards id = none) (present : self.guards source = some that) :
 id ≠ source := by
 grind

theorem forall_guard {holds : PageGuard → Prop} (present : self.guards id = some guard)
 (here : holds guard) : ∀ other ∈ self.guards id, holds other := by
 simp_all

/-- What an action does to the pages that guards hold. -/
inductive Effect (program : GuardProgram) (action : GuardAction) (next : GuardProgram) : Prop
 | crashes (same : next = program.crash) (harmful : ¬ program.Harmless action)
 | keeps (alive : next.crashed = false) (pins : pinRecords next.log = pinRecords program.log)
  (count : program.pins ≤ next.pins) (held : next.held = program.held)
  (harmless : program.Harmless action)
 | acquires (alive : next.crashed = false) (id : GuardId) (page : PagePtr)
  (pins : pinRecords next.log = .acquired page :: pinRecords program.log)
  (fresh : page.pin = program.pins) (count : next.pins = program.pins + 1)
  (free : program.held id = none)
  (held : next.held = update program.held id (some page))
  (harmless : program.Harmless action)
 | moves (alive : next.crashed = false) (id source : GuardId) (different : id ≠ source)
  (pins : pinRecords next.log = pinRecords program.log) (count : next.pins = program.pins)
  (held : next.held =
   update (update program.held id (program.held source)) source none)
  (harmless_iff : program.Harmless action ↔ program.held id = none)
 | releases (alive : next.crashed = false) (id : GuardId)
  (pins : pinRecords next.log = pinRecords program.log) (count : next.pins = program.pins)
  (held : next.held = update program.held id none)
  (harmless_iff : program.Harmless action ↔ program.held id = none)

variable {self next : GuardProgram} {action : GuardAction}

theorem held_set (self : GuardProgram) (id : GuardId) (guard : PageGuard) :
 (self.set id guard).held = update self.held id guard.guard.page := by
 funext other
 by_cases same : other = id
 · subst other
   rw [update_self]
   exact held_eq (update_self ..)
 · rw [update_of_ne same]
   unfold held set
   dsimp only
   rw [update_of_ne same]

theorem held_destroyed (self : GuardProgram) (id : GuardId) (log : PageLog) :
 held { self with guards := update self.guards id none, log := log } =
  update self.held id none := by
 funext other
 unfold held
 dsimp only
 by_cases same : other = id
 · simp_all
 · rw [update_of_ne same, update_of_ne same]

/-! ### One action -/

section

variable (alive : self.crashed = false)
include alive

theorem effect_acquire {kind : GuardKind} {pageId : Option PageId} (free : self.guards id = none) :
 Effect self (.acquire id kind pageId) (self.acquire id kind pageId) := by
 have unheld := held_none free
 have pins : pinRecords (self.acquire id kind pageId).log =
  pinRecords (((pageId.map fun pageId => (⟨pageId, self.pins⟩ : PagePtr)).map
   PageRecord.acquired).toList ++ self.log) := by
  cases kind with
  | basic => rfl
  | latched latch => exact pinRecords_latch ..
 cases pageId with
 | none =>
  refine .keeps alive pins (Nat.le_succ _) ?_ trivial
  rw [← update_eq_self id self.held, unheld]
  exact held_set ..
 | some pageId =>
  exact .acquires alive id ⟨pageId, self.pins⟩ pins rfl rfl unheld (held_set ..) trivial

theorem effect_moveConstruct (free : self.guards id = none)
 (present : self.guards source = some that) :
 Effect self (.moveConstruct id source)
  (self.finish id that.kind source that.kind (that.moveConstruct self.log)) := by
 have different := ne_of_free free present
 have unheld := held_none free
 unfold PageGuard.moveConstruct
 cases kind : that.kind with
 | basic =>
  refine .moves alive id source different rfl rfl ?_ ?_
  · rw [held_eq present]
    exact (held_set ..).trans (congrArg (update · source none) (held_set ..))
  · exact ⟨fun _ => unheld, fun _ => forall_guard present kind⟩
 | latched latch =>
  refine .crashes rfl ?_
  intro harmless
  have basic := harmless that present
  rw [kind] at basic
  cases basic

section

variable (present : self.guards id = some guard)
include present

theorem effect_selfAssign :
 Effect self (.moveAssign id id) (self.finishOne id guard.kind (guard.selfAssign self.log)) := by
 unfold PageGuard.selfAssign
 cases kind : guard.kind with
 | basic =>
  refine .keeps alive rfl (Nat.le_refl _) ?_ ?_
  · refine (held_set ..).trans ?_
    rw [← held_eq present, update_eq_self]
  · exact forall_guard present (.inl ⟨rfl, kind⟩)
 | latched latch =>
  cases dropped : guard.drop self.log with
  | none =>
   refine .crashes rfl ?_
   intro harmless
   rcases harmless guard present with ⟨-, basic⟩ | ⟨idle, -⟩
   · rw [kind] at basic
     cases basic
   · exact PageGuard.not_idle_of_drop dropped idle
  | some both =>
   obtain ⟨pins, -, gone⟩ := PageGuard.drop_some dropped
   refine .releases alive id pins rfl ?_ ?_
   · refine (held_set ..).trans ?_
     rw [gone]
   · rw [held_eq present, ← PageGuard.idle_iff dropped]
     constructor
     · intro harmless
       rcases harmless guard present with ⟨-, basic⟩ | ⟨idle, -⟩
       · rw [kind] at basic
         cases basic
       · exact idle
     · exact fun idle => forall_guard present (.inr ⟨idle, .inl rfl⟩)

theorem effect_moveAssign (other : self.guards source = some that) (different : id ≠ source) :
 Effect self (.moveAssign id source)
  (self.finish id guard.kind source that.kind (guard.moveAssign that.guard self.log)) := by
 have harmful : guard.kind ≠ .basic → ¬ self.Harmless (.moveAssign id source) := by
  intro latched harmless
  rcases harmless guard present with ⟨same, -⟩ | ⟨-, same | basic⟩
  · exact different same
  · exact different same
  · exact latched basic
 unfold PageGuard.moveAssign
 cases kind : guard.kind with
 | basic =>
  unfold moveAssign
  cases dropped : guard.guard.drop self.log with
  | none =>
   refine .crashes rfl ?_
   intro harmless
   have unset := (drop_eq_none.mp dropped).1
   rcases harmless guard present with ⟨same, -⟩ | ⟨idle, -⟩
   · exact different same
   · rw [idle.1] at unset
     cases unset
  | some both =>
   have whole := PageGuard.drop_basic kind dropped
   refine .moves alive id source different (PageGuard.drop_some whole).1 rfl ?_ ?_
   · rw [held_eq other]
     exact (held_set ..).trans (congrArg (update · source none) (held_set ..))
   · rw [held_eq present, ← PageGuard.idle_iff whole]
     constructor
     · intro harmless
       rcases harmless guard present with ⟨same, -⟩ | ⟨idle, -⟩
       · exact absurd same different
       · exact idle
     · intro idle
       exact forall_guard present (.inr ⟨idle, .inr kind⟩)
 | latched latch =>
  unfold moveAssign
  rw [PageGuard.drop_again]
  refine .crashes rfl (harmful ?_)
  rw [kind]
  exact GuardKind.noConfusion

theorem effect_getDataMut (holds : guard.guard.page ≠ none) :
 Effect self (.getDataMut id)
  (self.finishOne id guard.kind (guard.guard.getDataMut self.log)) := by
 obtain ⟨page, own⟩ := ne_none_iff_exists'.mp holds
 unfold getDataMut
 rw [own]
 refine .keeps alive rfl (Nat.le_refl _) ?_ trivial
 refine (held_set ..).trans ?_
 rw [← own, ← held_eq present, update_eq_self]

end

theorem effect_upgrade {latch : Latch} (free : self.guards id = none)
 (present : self.guards source = some that) :
 Effect self (.upgrade id source latch)
  (self.finish id (.latched latch) source .basic
   (some (that.guard.upgrade latch self.log))) := by
 have different := ne_of_free free present
 have unheld := held_none free
 refine .moves alive id source different (pinRecords_latch ..) rfl ?_
  ⟨fun _ => unheld, fun _ => trivial⟩
 rw [held_eq present]
 exact (held_set ..).trans (congrArg (update · source none) (held_set ..))

theorem effect_drop (present : self.guards id = some guard) :
 Effect self (.drop id) (self.finishOne id guard.kind (guard.drop self.log)) := by
 cases dropped : guard.drop self.log with
 | none => exact .crashes rfl fun harmless =>
  PageGuard.not_idle_of_drop dropped (harmless guard present)
 | some both =>
  obtain ⟨pins, -, gone⟩ := PageGuard.drop_some dropped
  refine .releases alive id pins rfl ?_ ?_
  · refine (held_set ..).trans ?_
    rw [gone]
  · rw [held_eq present, ← PageGuard.idle_iff dropped]
    constructor
    · intro harmless
      exact harmless guard present
    · exact fun idle => forall_guard present idle

theorem effect_destroy (present : self.guards id = some guard) :
 Effect self (.destroy id)
  (match guard.destroy self.log with
   | some log => { self with guards := update self.guards id none, log := log }
   | none => self.crash) := by
 unfold PageGuard.destroy
 cases kind : guard.kind with
 | basic =>
  cases dropped : guard.guard.drop self.log with
  | none =>
   refine .crashes rfl ?_
   intro harmless
   have unset := (drop_eq_none.mp dropped).1
   rw [(harmless guard present).2.1] at unset
   cases unset
  | some both =>
   have whole := PageGuard.drop_basic kind dropped
   refine .releases alive id (PageGuard.drop_some whole).1 rfl (held_destroyed ..) ?_
   rw [held_eq present, ← PageGuard.idle_iff whole]
   constructor
   · intro harmless
     exact (harmless guard present).2
   · exact fun idle => forall_guard present ⟨kind, idle⟩
 | latched latch =>
  rw [PageGuard.drop_again]
  refine .crashes rfl ?_
  intro harmless
  have basic := (harmless guard present).1
  rw [kind] at basic
  cases basic

end

theorem effect_of_step (taken : self.step action = some next) : Effect self action next := by
 unfold step at taken
 by_cases ended : self.crashed = true
 · rw [if_pos ended] at taken
   cases taken
 · rw [if_neg ended] at taken
   have alive := Bool.not_eq_true _ ▸ ended
   cases action with
   | acquire id kind pageId =>
    dsimp only at taken
    split at taken
    · rename_i free
      cases taken
      exact effect_acquire alive free
    · cases taken
   | moveConstruct id source =>
    dsimp only at taken
    split at taken
    · rename_i that free present
      cases taken
      exact effect_moveConstruct alive free present
    · cases taken
   | moveAssign id source =>
    dsimp only at taken
    split at taken
    · rename_i guard that present other
      by_cases typed : guard.kind = that.kind
      · rw [if_pos typed] at taken
        by_cases same : id = source
        · rw [if_pos same] at taken
          cases taken
          subst source
          exact effect_selfAssign alive present
        · rw [if_neg same] at taken
          cases taken
          exact effect_moveAssign alive present other same
      · simp_all
    · cases taken
   | getDataMut id =>
    dsimp only at taken
    split at taken
    · rename_i guard present
      split at taken
      · cases taken
      · rename_i writable
        cases taken
        exact effect_getDataMut alive present fun free => writable (.inr free)
    · cases taken
   | upgrade id source latch =>
    dsimp only at taken
    split at taken
    · rename_i that free present
      split at taken
      · cases taken
        exact effect_upgrade alive free present
      · cases taken
    · cases taken
   | drop id =>
    dsimp only at taken
    split at taken
    · rename_i guard present
      cases taken
      exact effect_drop alive present
    · cases taken
   | destroy id =>
    dsimp only at taken
    split at taken
    · rename_i guard present
      have result := effect_destroy alive present
      split at taken
      · simp_all
      · simp_all
    · cases taken

/-! ### What guards promise -/

def unpins (log : PageLog) (page : PagePtr) : ℕ :=
 log.countP fun record =>
  match record with
  | .unpinned other _ => other = page
  | _ => false

structure Balanced (program : GuardProgram) : Prop where
 /-- Nothing went through a null pointer. -/
 alive : program.crashed = false
 /-- A page has one guard, or it has none and was unpinned once. -/
 once : ∀ page, .acquired page ∈ program.log →
  ((∃! id, program.held id = some page) ∧ unpins program.log page = 0) ∨
   ((∀ id, program.held id ≠ some page) ∧ unpins program.log page = 1)
 /-- Before an unpin all latches are released. -/
 unlatched : ∀ page isDirty before, (.unpinned page isDirty :: before) <:+ program.log →
  ∀ latch, before.count (.latched page latch) = before.count (.unlatched page latch)
 /-- A page that was written is dirty. -/
 dirty : ∀ page isDirty before, (.unpinned page isDirty :: before) <:+ program.log →
  .wrote page ∈ before → isDirty = true

/-- Acquired pages have at most one guard; none is ever unpinned. -/
structure Tracked (program : GuardProgram) : Prop where
 acquired : ∀ {id page}, program.held id = some page → .acquired page ∈ pinRecords program.log
 fresh : ∀ {page}, .acquired page ∈ pinRecords program.log → page.pin < program.pins
 unique : ∀ {id other page}, program.held id = some page → program.held other = some page →
  id = other
 never : ∀ page isDirty, .unpinned page isDirty ∉ pinRecords program.log

def Held (program : GuardProgram) : Prop :=
 ∀ page, .acquired page ∈ pinRecords program.log → ∃ id, program.held id = some page

theorem start_tracked : start.Tracked where
 acquired held := by cases held
 fresh member := by cases member
 unique held := by cases held
 never _ _ member := by cases member

variable {page : PagePtr}

theorem unpins_eq_zero {log : PageLog} (never : ∀ isDirty, .unpinned page isDirty ∉ pinRecords log)
 :
 unpins log page = 0 := by
 unfold unpins
 rw [countP_eq_zero]
 intro record member unpinned
 cases record with
 | unpinned other isDirty =>
  have same : other = page := of_decide_eq_true unpinned
  subst other
  exact never isDirty (mem_filter.mpr ⟨member, rfl⟩)
 | _ => cases unpinned

theorem Tracked.balanced_iff {program : GuardProgram} (tracked : program.Tracked) :
 program.Balanced ↔ program.crashed = false ∧ program.Held := by
 have zero : ∀ page, unpins program.log page = 0 :=
  fun page => unpins_eq_zero (tracked.never page)
 have never : ∀ page isDirty before,
  ¬ (.unpinned page isDirty :: before) <:+ program.log := by
  intro page isDirty before suffix
  exact tracked.never page isDirty
   (mem_filter.mpr ⟨suffix.subset mem_cons_self, rfl⟩)
 constructor
 · intro balanced
   refine ⟨balanced.alive, fun page member => ?_⟩
   rcases balanced.once page (mem_of_mem_filter member) with ⟨holder, -⟩ | ⟨-, one⟩
   · exact holder.exists
   · rw [zero page] at one
     cases one
 · intro both
   obtain ⟨alive, holds⟩ := both
   refine ⟨alive, fun page member => .inl ⟨?_, zero page⟩, ?_, ?_⟩
   · obtain ⟨id, own⟩ := holds page (mem_filter.mpr ⟨member, rfl⟩)
     exact ⟨id, own, fun other held => tracked.unique held own⟩
   · simp_all
   · simp_all

section Preservation

variable {program : GuardProgram}

theorem Tracked.handed (tracked : program.Tracked)
 (pins : pinRecords next.log = pinRecords program.log) (count : program.pins ≤ next.pins)
 (giver : GuardId → GuardId)
 (handed : ∀ {id page}, next.held id = some page → program.held (giver id) = some page)
 (injective : ∀ {id other}, (next.held id).isSome → (next.held other).isSome →
  giver id = giver other → id = other) : next.Tracked where
 acquired held := by
  rw [pins]
  exact tracked.acquired (handed held)
 fresh member := by
  rw [pins] at member
  exact Nat.lt_of_lt_of_le (tracked.fresh member) count
 unique first second := by
  apply injective (isSome_of_eq_some first) (isSome_of_eq_some second)
  exact tracked.unique (handed first) (handed second)
 never := by
  rw [pins]
  exact tracked.never

theorem held_moved {other : GuardId} {holds : GuardId → Option PagePtr}
 (held : update (update holds id (holds source)) source none other =
  some page) :
 other ≠ source ∧ holds (if other = id then source else other) = some page := by
 by_cases same : other = source
 · rw [same, update_self] at held
   cases held
 · refine ⟨same, ?_⟩
   rw [update_of_ne same] at held
   by_cases own : other = id
   · simp_all
   · simp_all

theorem held_released {other : GuardId} {holds : GuardId → Option PagePtr}
 (held : update holds id none other = some page) :
 other ≠ id ∧ holds other = some page := by
 by_cases same : other = id
 · rw [same, update_self] at held
   cases held
 · simp_all

variable {action : GuardAction} {next : GuardProgram}

theorem Tracked.step (tracked : program.Tracked) (effect : Effect program action next) :
 next.Tracked := by
 cases effect with
 | crashes same _ =>
  rw [same]
  exact ⟨tracked.acquired, tracked.fresh, tracked.unique, tracked.never⟩
 | keeps _ pins count held _ =>
  exact tracked.handed pins count id (fun own => held ▸ own) fun _ _ same => same
 | acquires _ id newest pins fresh count free held _ =>
  -- The new number is above all others.
  have older : ∀ {other page}, other ≠ id → next.held other = some page →
   program.held other = some page := by
   intro other page different own
   rw [held, update_of_ne different] at own
   exact own
  have own : next.held id = some newest := by rw [held, update_self]
  have newer : ∀ {other}, program.held other ≠ some newest := by
   intro other old
   have := tracked.fresh (tracked.acquired old)
   omega
  constructor
  · intro other page holds
    rw [pins]
    by_cases same : other = id
    · simp_all
    · exact mem_cons_of_mem _ (tracked.acquired (older same holds))
  · intro page member
    rw [pins] at member
    rcases mem_cons.mp member with same | old
    · cases same
      omega
    · have := tracked.fresh old
      omega
  · intro first second page holds other
    by_cases one : first = id
    · by_cases two : second = id
      · rw [one, two]
      · simp_all
    · by_cases two : second = id
      · simp_all
      · exact tracked.unique (older one holds) (older two other)
  · intro page isDirty member
    rw [pins] at member
    rcases mem_cons.mp member with same | old
    · cases same
    · exact tracked.never page isDirty old
 | moves _ id source different pins count held _ =>
  apply tracked.handed pins (Nat.le_of_eq count.symm)
   (fun other => if other = id then source else other)
  · intro other page own
    rw [held] at own
    exact (held_moved own).2
  · intro first second one two same
    obtain ⟨page, own⟩ := isSome_iff_exists.mp one
    obtain ⟨otherPage, otherOwn⟩ := isSome_iff_exists.mp two
    rw [held] at own otherOwn
    by_cases isFirst : first = id
    · by_cases isSecond : second = id
      · rw [isFirst, isSecond]
      · simp_all
    · by_cases isSecond : second = id
      · simp_all
      · simp_all
 | releases _ id pins count held _ =>
  apply tracked.handed pins (Nat.le_of_eq count.symm) (fun other => other)
  · intro other page own
    rw [held] at own
    exact (held_released own).2
  · exact fun _ _ same => same

theorem Held.step (holds : program.Held) (effect : Effect program action next)
 (harmless : program.Harmless action) : next.crashed = false ∧ next.Held := by
 cases effect with
 | crashes _ harmful => exact absurd harmless harmful
 | keeps alive pins _ held _ =>
  refine ⟨alive, fun page member => ?_⟩
  rw [pins] at member
  rw [held]
  exact holds page member
 | acquires alive id newest pins _ _ free held _ =>
  refine ⟨alive, fun page member => ?_⟩
  rw [pins] at member
  rw [held]
  rcases mem_cons.mp member with same | old
  · cases same
    exact ⟨id, update_self ..⟩
  · obtain ⟨other, own⟩ := holds page old
    refine ⟨other, (update_of_ne ?_ ..).trans own⟩
    grind
 | moves alive id source different pins _ held harmless_iff =>
  refine ⟨alive, fun page member => ?_⟩
  rw [pins] at member
  rw [held]
  obtain ⟨other, own⟩ := holds page member
  by_cases moved : other = source
  · refine ⟨id, ?_⟩
    simp_all
  · refine ⟨other, ?_⟩
    grind
 | releases alive id pins _ held harmless_iff =>
  refine ⟨alive, fun page member => ?_⟩
  rw [pins] at member
  rw [held]
  obtain ⟨other, own⟩ := holds page member
  refine ⟨other, (update_of_ne ?_ ..).trans own⟩
  grind

/-- The program crashed, or an acquired page is held by no guard. -/
def Broken (program : GuardProgram) : Prop :=
 program.crashed = true ∨
  ∃ page, .acquired page ∈ pinRecords program.log ∧ ∀ id, program.held id ≠ some page

theorem Broken.of_harmful (tracked : program.Tracked) (effect : Effect program action next)
 (harmful : ¬ program.Harmless action) : next.Broken := by
 cases effect with
 | crashes same _ => exact .inl (same ▸ rfl)
 | keeps _ _ _ _ harmless => exact absurd harmless harmful
 | acquires _ _ _ _ _ _ _ _ harmless => exact absurd harmless harmful
 | moves _ id source different pins _ held harmless_iff =>
  obtain ⟨page, own⟩ := ne_none_iff_exists'.mp fun free => harmful (harmless_iff.mpr free)
  refine .inr ⟨page, pins ▸ tracked.acquired own, fun other holder => ?_⟩
  rw [held] at holder
  obtain ⟨notSource, holds⟩ := held_moved holder
  have same := tracked.unique holds own
  by_cases isId : other = id
  · simp_all
  · simp_all
 | releases _ id pins _ held harmless_iff =>
  obtain ⟨page, own⟩ := ne_none_iff_exists'.mp fun free => harmful (harmless_iff.mpr free)
  refine .inr ⟨page, pins ▸ tracked.acquired own, fun other holder => ?_⟩
  rw [held] at holder
  obtain ⟨notId, holds⟩ := held_released holder
  exact notId (tracked.unique holds own)

theorem crashed_of_step (taken : program.step action = some next) : program.crashed = false := by
 unfold GuardProgram.step at taken
 by_cases ended : program.crashed = true
 · rw [if_pos ended] at taken
   cases taken
 · exact Bool.not_eq_true _ ▸ ended

theorem Broken.step (tracked : program.Tracked) (broken : program.Broken)
 (alive : program.crashed = false) (effect : Effect program action next) : next.Broken := by
 rcases broken with ended | ⟨page, member, lost⟩
 · rw [alive] at ended
   cases ended
 · cases effect with
   | crashes same _ => exact .inl (same ▸ rfl)
   | keeps _ pins _ held _ =>
    refine .inr ⟨page, pins ▸ member, fun id => ?_⟩
    rw [held]
    exact lost id
   | acquires _ id newest pins fresh _ _ held _ =>
    refine .inr ⟨page, pins ▸ mem_cons_of_mem _ member, fun other holder => ?_⟩
    rw [held] at holder
    by_cases same : other = id
    · rw [same, update_self] at holder
      have := tracked.fresh member
      simp_all
    · simp_all
   | moves _ id source _ pins _ held _ =>
    refine .inr ⟨page, pins ▸ member, fun other holder => ?_⟩
    rw [held] at holder
    exact lost _ (held_moved holder).2
   | releases _ id pins _ held _ =>
    refine .inr ⟨page, pins ▸ member, fun other holder => ?_⟩
    rw [held] at holder
    exact lost other (held_released holder).2

end Preservation

/-! ### Runs -/

theorem tracked_of_run {actions : List GuardAction} {final : GuardProgram}
 (run : Run (ofFunction step) start actions final) : final.Tracked := by
 apply run.invariant start_tracked
 intro program action next tracked taken
 exact tracked.step (effect_of_step taken)

/-- The guards keep their promise in exactly the runs of harmless actions. -/
theorem guards_balanced {actions : List GuardAction} {final : GuardProgram}
 (run : Run (ofFunction step) start actions final) :
 final.Balanced ↔ Run (Guarded Harmless (ofFunction step)) start actions final := by
 have decided : (Run (Guarded Harmless (ofFunction step)) start actions final ∧
  final.crashed = false ∧ final.Held) ∨
  (¬ Run (Guarded Harmless (ofFunction step)) start actions final ∧ final.Broken) := by
  induction run with
  | nil => exact Or.inl ⟨.nil, rfl, fun _ member => by cases member⟩
  | @snoc actions program next action before taken ih =>
   have tracked := tracked_of_run before
   have effect := effect_of_step taken
   rcases ih with ⟨harmless, alive, holds⟩ | ⟨harmful, broken⟩
   · by_cases last : program.Harmless action
     · exact Or.inl ⟨.snoc harmless ⟨last, taken⟩, holds.step effect last⟩
     · refine Or.inr ⟨?_, .of_harmful tracked effect last⟩
       intro all
       obtain ⟨middle, start, allowed, -⟩ := all.last
       rw [start.of_guarded.unique before] at allowed
       exact last allowed
   · refine Or.inr ⟨?_, broken.step tracked (crashed_of_step taken) effect⟩
     intro all
     obtain ⟨middle, start, -, -⟩ := all.last
     rw [start.of_guarded.unique before] at start
     exact harmful start
 rw [(tracked_of_run run).balanced_iff]
 rcases decided with ⟨harmless, fine⟩ | ⟨harmful, broken⟩
 · exact iff_of_true fine harmless
 · refine iff_of_false ?_ harmful
   intro fine
   rcases broken with ended | ⟨page, member, lost⟩
   · rw [fine.1] at ended
     cases ended
   · obtain ⟨id, own⟩ := fine.2 page member
     exact lost id own

instance (guard : BasicPageGuard) : Decidable guard.Idle :=
 inferInstanceAs (Decidable (_ ∧ _))

instance (program : GuardProgram) : (action : GuardAction) → Decidable (program.Harmless action)
 | .moveConstruct _ source =>
  inferInstanceAs (Decidable (∀ that ∈ program.guards source, that.kind = .basic))
 | .moveAssign id source =>
  inferInstanceAs (Decidable (∀ guard ∈ program.guards id,
   (id = source ∧ guard.kind = .basic) ∨
    (guard.guard.Idle ∧ (id = source ∨ guard.kind = .basic))))
 | .drop id => inferInstanceAs (Decidable (∀ guard ∈ program.guards id, guard.guard.Idle))
 | .destroy id =>
  inferInstanceAs (Decidable (∀ guard ∈ program.guards id,
   guard.kind = .basic ∧ guard.guard.Idle))
 | .acquire _ _ _ => isTrue trivial
 | .getDataMut _ => isTrue trivial
 | .upgrade _ _ _ => isTrue trivial

/-- A page is written, upgraded and read on; only a guard without a page is dropped. -/
def upgraded : List GuardAction :=
 [.acquire 0 .basic (some 7), .getDataMut 0, .upgrade 1 0 .read, .acquire 2 .basic none, .drop 2]

theorem guards_balanced_upgraded :
 ∃ final, Run (ofFunction step) start upgraded final ∧ final.Balanced := by
 have run : ∃ final, Run (Guarded Harmless (ofFunction step)) start upgraded final :=
  ⟨_, .of_replay rfl⟩
 obtain ⟨final, harmless⟩ := run
 exact ⟨final, harmless.of_guarded, (guards_balanced harmless.of_guarded).mpr harmless⟩

/-- A page that is fetched, written and dropped is never unpinned. -/
theorem guards_unbalanced_dropped :
 ¬ ∀ (actions : List GuardAction) (final : GuardProgram),
  Run (ofFunction step) start actions final → final.Balanced := by
 intro claim
 have balanced := claim [.acquire 0 (.latched .write) (some 7), .getDataMut 0, .drop 0] _
  (.of_replay_all rfl)
 rcases balanced.once ⟨7, 0⟩ (by decide) with ⟨⟨id, own, -⟩, -⟩ | ⟨-, one⟩
 · cases id with
   | zero => cases own
   | succ id => cases own
 · exact absurd one (by decide)

end GuardProgram

end MyNotes.Cmu15445
