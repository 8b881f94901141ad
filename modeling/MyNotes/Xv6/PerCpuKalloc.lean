/-
`kalloc` and `kfree` of lab 8 with a free list for each CPU: the first version, in which a
thread keeps the lock of its own list while it takes the others in turn.

A page is its physical address.  It belongs to a thread from the step that unlinks it from a
list until the step that links it again; threads may pass pages on.  The CPU number of a call
is any number, since the thread may have moved on by the time it uses it.  Next to the state a
run keeps the lists that a call of `kalloc` has seen empty, its own one first, and the CPU
number and the lists of each call that returned 0.
-/

import MyNotes.Library.Placement
import MyNotes.Library.Transition
import MyNotes.Library.WaitGraph
import MyNotes.Xv6.Kalloc
import Mathlib

namespace MyNotes.Xv6.PerCpuKalloc

open Library.Placement Library.Transition Library.WaitGraph Function List Function

/-- The addresses between which `kinit` frees the pages. -/
structure Layout where
 kernelEnd : ℕ
 physTop : ℕ

def Layout.Valid (layout : Layout) (pa : ℕ) : Prop :=
 pa % pgsize = 0 ∧ layout.kernelEnd ≤ pa ∧ pa < layout.physTop

instance (layout : Layout) (pa : ℕ) : Decidable (layout.Valid pa) :=
 inferInstanceAs (Decidable (_ ∧ _ ∧ _))

variable {ncpu : ℕ} {Tid : Type}

/-- Where a thread is in `kalloc` or `kfree`; `c` is its CPU number. -/
inductive Stage (ncpu : ℕ) where
 | idle
 | panicked
 | own (c : Fin ncpu)
 | checking (c : Fin ncpu)
 | taking (c : Fin ncpu) (r : ℕ)
 | taken (c : Fin ncpu) (r : ℕ)
 | scan (c : Fin ncpu) (i : ℕ)
 | wanting (c i : Fin ncpu)
 | looking (c i : Fin ncpu)
 | stealing (c i : Fin ncpu) (block : ℕ)
 | stolen (c i : Fin ncpu) (block : ℕ)
 | passing (c i : Fin ncpu)
 | freeing (c : Fin ncpu) (pa : ℕ)
 | pushing (c : Fin ncpu) (pa : ℕ)
 | pushed (c : Fin ncpu)

structure State (ncpu : ℕ) (Tid : Type) where
 free : Fin ncpu → List ℕ
 lock : Fin ncpu → Option Tid
 stage : Tid → Stage ncpu
 held : Tid → List ℕ
 saw : Tid → List (Fin ncpu)
 zeros : List (Fin ncpu × List (Fin ncpu))

inductive Event (ncpu : ℕ) (Tid : Type) where
 | kalloc (tid : Tid) (c : Fin ncpu)
 | kfree (tid : Tid) (c : Fin ncpu) (pa : ℕ)
 | pass (source target : Tid) (pa : ℕ)
 | run (tid : Tid)

namespace Stage

def holds : Stage ncpu → List (Fin ncpu)
 | .idle | .panicked | .own _ | .freeing _ _ => []
 | .checking c | .taking c _ | .taken c _ | .scan c _ | .wanting c _ | .pushing c _
 | .pushed c => [c]
 | .looking c i | .stealing c i _ | .stolen c i _ | .passing c i => [c, i]

def wants : Stage ncpu → Option (Fin ncpu)
 | .own c | .freeing c _ => some c
 | .wanting _ i => some i
 | _ => none

/-- The next list that the loop of `kalloc` is about to lock. -/
def asks : Stage ncpu → Option (Fin ncpu × Fin ncpu)
 | .scan c i => if within : i < ncpu then
  if ⟨i, within⟩ = c then none else some (c, ⟨i, within⟩) else none
 | _ => none

end Stage

namespace State

/-- After `kinit`. -/
def start (free : Fin ncpu → List ℕ) : State ncpu Tid where
 free := free
 lock _ := none
 stage _ := .idle
 held _ := []
 saw _ := []
 zeros := []

variable [DecidableEq Tid]

section

variable (self : State ncpu Tid)

def move (tid : Tid) (stage : Stage ncpu) : State ncpu Tid :=
 { self with stage := update self.stage tid stage }

def acquire (c : Fin ncpu) (tid : Tid) : State ncpu Tid :=
 { self with lock := update self.lock c (some tid) }

def release (c : Fin ncpu) : State ncpu Tid :=
 { self with lock := update self.lock c none }

def take (c : Fin ncpu) (tid : Tid) (page : ℕ) : State ncpu Tid :=
 { self with
  free := update self.free c (self.free c).tail
  held := update self.held tid (page :: self.held tid) }

def put (c : Fin ncpu) (tid : Tid) (page : ℕ) : State ncpu Tid :=
 { self with
  held := update self.held tid ((self.held tid).erase page)
  free := update self.free c (page :: self.free c) }

def see (tid : Tid) (saw : List (Fin ncpu)) : State ncpu Tid :=
 { self with saw := update self.saw tid saw }

/-- The next step of `kalloc` or `kfree`. -/
def run (tid : Tid) : Option (State ncpu Tid) :=
 match self.stage tid with
 | .idle | .panicked => none
 | .own c =>
  if self.lock c = none then some ((self.acquire c tid).move tid (.checking c)) else none
 | .checking c =>
  match self.free c with
  | r :: _ => some (self.move tid (.taking c r))
  | [] => some ((self.see tid [c]).move tid (.scan c 0))
 | .taking c r => some ((self.take c tid r).move tid (.taken c r))
 | .taken c _ => some ((self.release c).move tid .idle)
 | .scan c i =>
  if within : i < ncpu then
   if ⟨i, within⟩ = c then some (self.move tid (.scan c (i + 1)))
   else some (self.move tid (.wanting c ⟨i, within⟩))
  else
   some { (self.release c).move tid .idle with
    zeros := self.zeros ++ [(c, self.saw tid)] }
 | .wanting c i =>
  if self.lock i = none then some ((self.acquire i tid).move tid (.looking c i)) else none
 | .looking c i =>
  match self.free i with
  | block :: _ => some (self.move tid (.stealing c i block))
  | [] => some ((self.see tid (self.saw tid ++ [i])).move tid (.passing c i))
 | .stealing c i block => some ((self.take i tid block).move tid (.stolen c i block))
 | .stolen c i block => some ((self.release i).move tid (.taken c block))
 | .passing c i => some ((self.release i).move tid (.scan c (i + 1)))
 | .freeing c pa =>
  if self.lock c = none then some ((self.acquire c tid).move tid (.pushing c pa)) else none
 | .pushing c pa => some ((self.put c tid pa).move tid (.pushed c))
 | .pushed c => some ((self.release c).move tid .idle)

end

/-- Calls come from threads that are in no other call, and give back what the thread has. -/
def step (layout : Layout) (self : State ncpu Tid) : Event ncpu Tid → Option (State ncpu Tid)
 | .kalloc tid c =>
  match self.stage tid with
  | .idle => some (self.move tid (.own c))
  | _ => none
 | .kfree tid c pa =>
  match self.stage tid with
  | .idle =>
   if layout.Valid pa then
    if pa ∈ self.held tid then some (self.move tid (.freeing c pa)) else none
   else some (self.move tid .panicked)
  | _ => none
 | .pass source target pa =>
  match self.stage source with
  | .idle =>
   if source ≠ target ∧ pa ∈ self.held source then
    some { self with
     held := update
      (update self.held source ((self.held source).erase pa))
      target (pa :: self.held target) }
   else none
  | _ => none
 | .run tid => self.run tid

/-- A `kalloc` whose own list another thread waits for asks for the list of another CPU only
while the thread that holds its lock does not wait. -/
def avoids (self : State ncpu Tid) : Event ncpu Tid → Prop
 | .run tid => ∀ c i, (self.stage tid).asks = some (c, i) →
  (∀ waiter, (self.stage waiter).wants ≠ some c) ∨
   ∀ holder, self.lock i = some holder → (self.stage holder).wants = none
 | _ => True

instance [Fintype Tid] (state : State ncpu Tid) : ∀ event, Decidable (state.avoids event)
 | .run tid => inferInstanceAs (Decidable (∀ c i, (state.stage tid).asks = some (c, i) →
  (∀ waiter, (state.stage waiter).wants ≠ some c) ∨
   ∀ holder, state.lock i = some holder → (state.stage holder).wants = none))
 | .kalloc _ _ | .kfree _ _ _ | .pass _ _ _ => .isTrue trivial

/-- A call that returned 0 saw the list of its own CPU empty, and then all the others. -/
def SawAll (state : State ncpu Tid) : Prop :=
 ∀ c saw, (c, saw) ∈ state.zeros → ∃ rest, saw = c :: rest ∧ ∀ i ≠ c, i ∈ rest

def waits (state : State ncpu Tid) : Tid → Tid → Prop :=
 Waits (fun tid => (state.stage tid).wants) state.lock

end State

/-! ### Stages -/

/-- The lists before `i` have been seen. -/
def Seen (saw : List (Fin ncpu)) (c : Fin ncpu) (i : ℕ) : Prop :=
 ∃ rest, saw = c :: rest ∧ ∀ j ≠ c, j.val < i → j ∈ rest

def Stage.Good (free : Fin ncpu → List ℕ) (saw : List (Fin ncpu)) (held : List ℕ) :
 Stage ncpu → Prop
 | .idle | .panicked | .own _ | .checking _ | .taken _ _ | .pushed _ => True
 | .taking c r => (free c).head? = some r
 | .scan c i => Seen saw c i
 | .wanting c i | .looking c i => i ≠ c ∧ Seen saw c i
 | .stealing c i block => i ≠ c ∧ (free i).head? = some block
 | .stolen c i _ => i ≠ c
 | .passing c i => i ≠ c ∧ Seen saw c (i + 1)
 | .freeing _ pa | .pushing _ pa => pa ∈ held

variable {stage : Stage ncpu} {saw : List (Fin ncpu)}

theorem Stage.Good.frame {free next : Fin ncpu → List ℕ} {held more : List ℕ}
 (good : stage.Good free saw held) (lists : ∀ i ∈ stage.holds, next i = free i)
 (pages : ∀ pa ∈ held, pa ∈ more) :
 stage.Good next saw more := by
 cases stage with
 | idle | panicked | own | checking | taken | pushed => trivial
 | scan | wanting | looking | stolen | passing => exact good
 | taking c r =>
  change (next c).head? = some r
  rw [lists c mem_cons_self]
  exact good
 | stealing c i block =>
  refine ⟨good.1, ?_⟩
  rw [lists i (mem_cons_of_mem _ mem_cons_self)]
  exact good.2
 | freeing c pa | pushing c pa => exact pages pa good

variable {c : Fin ncpu}

theorem Seen.next {i : Fin ncpu} (seen : Seen saw c i) :
 Seen (saw ++ [i]) c (i + 1) := by
 obtain ⟨rest, rfl, before⟩ := seen
 refine ⟨rest ++ [i], rfl, fun j other within => ?_⟩
 rcases Nat.lt_succ_iff_lt_or_eq.mp within with earlier | here
 · simp_all
 · grind

theorem Seen.skip (seen : Seen saw c c) :
 Seen saw c (c + 1) := by
 obtain ⟨rest, same, before⟩ := seen
 refine ⟨rest, same, fun j other within => ?_⟩
 rcases Nat.lt_succ_iff_lt_or_eq.mp within with earlier | here
 · exact before j other earlier
 · exact absurd (Fin.ext here) other

namespace State

structure Consistent (layout : Layout) (state : State ncpu Tid) : Prop where
 placed : Placed layout.Valid (Sum.elim state.free state.held)
 owns : Owns state.lock fun tid => (state.stage tid).holds
 good : ∀ tid, (state.stage tid).Good state.free (state.saw tid) (state.held tid)
 zeros : state.SawAll

variable {layout : Layout} {state next : State ncpu Tid} {tid : Tid}

theorem start_consistent {free : Fin ncpu → List ℕ}
 (placed : Placed layout.Valid (Sum.elim free fun _ : Tid => [])) :
 (start free : State ncpu Tid).Consistent layout where
 placed := placed
 owns _ _ := iff_of_false nofun not_mem_nil
 good _ := trivial
 zeros _ _ none := absurd none not_mem_nil

variable [DecidableEq Tid]

section

variable (consistent : state.Consistent layout)
include consistent

omit [DecidableEq Tid] in
theorem Consistent.owner (lock : Fin ncpu) :
 state.lock lock = some tid ↔ lock ∈ (state.stage tid).holds :=
 consistent.owns tid lock

theorem Consistent.update {stage : Stage ncpu} (moved : next.stage = update state.stage tid stage)
 (placed : Placed layout.Valid (Sum.elim next.free next.held))
 (owns : Owns next.lock fun tid => (next.stage tid).holds)
 (lists : ∀ i, i ∉ (state.stage tid).holds → next.free i = state.free i)
 (saw : ∀ other ≠ tid, next.saw other = state.saw other)
 (held : ∀ other ≠ tid, next.held other = state.held other)
 (mine : stage.Good next.free (next.saw tid) (next.held tid)) (zeros : next.SawAll) :
 next.Consistent layout where
 placed := placed
 owns := owns
 zeros := zeros
 good other := by
  rw [moved]
  by_cases me : other = tid
  · rw [me, update_self]
    exact mine
  · rw [update_of_ne me, saw other me]
    refine (consistent.good other).frame (fun i locked => lists i fun here => ?_) ?_
    · exact me (consistent.owns.exclusive locked here)
    · simp_all

theorem Consistent.move (same : stage.holds = (state.stage tid).holds)
 (mine : stage.Good state.free (state.saw tid) (state.held tid)) :
 (state.move tid stage).Consistent layout :=
 consistent.update rfl consistent.placed (consistent.owns.stay same) (fun _ _ => rfl)
  (fun _ _ => rfl) (fun _ _ => rfl) mine consistent.zeros

theorem Consistent.lock {stage : Stage ncpu} {c : Fin ncpu} (free : state.lock c = none)
 (mine : ∀ other, other ∈ stage.holds ↔ other = c ∨ other ∈ (state.stage tid).holds)
 (good : stage.Good state.free (state.saw tid) (state.held tid)) :
 ((state.acquire c tid).move tid stage).Consistent layout :=
 consistent.update rfl consistent.placed (consistent.owns.enter free mine) (fun _ _ => rfl)
  (fun _ _ => rfl) (fun _ _ => rfl) good consistent.zeros

theorem Consistent.unlock (held : c ∈ (state.stage tid).holds)
 (mine : ∀ other, other ∈ stage.holds ↔ other ≠ c ∧ other ∈ (state.stage tid).holds)
 (good : stage.Good state.free (state.saw tid) (state.held tid)) :
 ((state.release c).move tid stage).Consistent layout :=
 consistent.update rfl consistent.placed (consistent.owns.leave held mine) (fun _ _ => rfl)
  (fun _ _ => rfl) (fun _ _ => rfl) good consistent.zeros

variable (same : stage.holds = (state.stage tid).holds)
include same

theorem Consistent.see (mine : stage.Good state.free saw (state.held tid)) :
 ((state.see tid saw).move tid stage).Consistent layout := by
 refine consistent.update rfl consistent.placed (consistent.owns.stay same) (fun _ _ => rfl)
  (fun other me => update_of_ne me _ _) (fun _ _ => rfl) ?_ consistent.zeros
 change stage.Good state.free (Function.update state.saw tid saw tid) _
 rw [update_self]
 exact mine

theorem Consistent.take {page : ℕ} (locked : c ∈ (state.stage tid).holds)
 (first : (state.free c).head? = some page) (mine : ∀ free saw held, stage.Good free saw held) :
 ((state.take c tid page).move tid stage).Consistent layout := by
 have contents : state.free c = page :: (state.free c).tail := by
  rw [cons_head?_tail first]
 refine consistent.update rfl ?_ (consistent.owns.stay same) (fun i elsewhere => ?_)
  (fun _ _ => rfl) (fun other me => update_of_ne me _ _) (mine _ _ _) consistent.zeros
 · have different : (.inl c : Fin ncpu ⊕ Tid) ≠ .inr tid := nofun
   have moved := consistent.placed.move different (.of_eq contents) (.refl _)
   rw [Sum.update_elim_inl, Sum.update_elim_inr] at moved
   exact moved
 · refine update_of_ne ?_ _ _
   rintro rfl
   exact elsewhere locked

theorem Consistent.put {page : ℕ} (locked : c ∈ (state.stage tid).holds)
 (member : page ∈ state.held tid) (mine : ∀ free saw held, stage.Good free saw held) :
 ((state.put c tid page).move tid stage).Consistent layout := by
 refine consistent.update rfl ?_ (consistent.owns.stay same) (fun i elsewhere => ?_)
  (fun _ _ => rfl) (fun other me => update_of_ne me _ _) (mine _ _ _) consistent.zeros
 · have different : (.inr tid : Fin ncpu ⊕ Tid) ≠ .inl c := nofun
   have moved := consistent.placed.move different (perm_cons_erase member) (.refl _)
   rw [Sum.update_elim_inr, Sum.update_elim_inl] at moved
   exact moved
 · refine update_of_ne ?_ _ _
   rintro rfl
   exact elsewhere locked

end

omit [DecidableEq Tid] in
theorem mem_release {i other : Fin ncpu} (different : i ≠ c) :
 other ∈ [c] ↔ other ≠ i ∧ other ∈ [c, i] := by
 rw [mem_singleton, mem_cons, mem_singleton]
 constructor
 · omega
 · rintro ⟨notThere, here | there⟩
   · exact here
   · exact absurd there notThere

section

variable (consistent : state.Consistent layout)
include consistent

theorem Consistent.run (taken : state.run tid = some next) : next.Consistent layout := by
 have good := consistent.good tid
 unfold State.run at taken
 cases stage : state.stage tid with
 | idle | panicked =>
  simp only [stage] at taken
  cases taken
 | own c =>
  simp only [stage] at taken
  split at taken
  · rename_i free
    cases taken
    refine consistent.lock free (fun other => ?_) trivial
    rw [stage]
    exact mem_cons
  · cases taken
 | checking c =>
  simp only [stage] at taken
  split at taken
  · rename_i r rest contents
    cases taken
    exact consistent.move (by rw [stage]; rfl) (congrArg List.head? contents)
  · cases taken
    exact consistent.see (by rw [stage]; rfl) ⟨[], rfl, fun _ _ => nofun⟩
 | taking c r =>
  rw [stage] at good
  simp only [stage] at taken
  cases taken
  refine consistent.take (by rw [stage]; rfl) ?_ good fun _ _ _ => trivial
  rw [stage]
  exact mem_cons_self
 | taken c r =>
  simp only [stage] at taken
  cases taken
  refine consistent.unlock ?_ (fun other => ?_) trivial
  · rw [stage]
    exact mem_cons_self
  · rw [stage]
    simp [Stage.holds]
 | scan c i =>
  rw [stage] at good
  simp only [stage] at taken
  split at taken
  · rename_i within
    split at taken
    · rename_i same
      cases taken
      subst same
      exact consistent.move (by rw [stage]; rfl) good.skip
    · rename_i other
      cases taken
      exact consistent.move (by rw [stage]; rfl) ⟨other, good⟩
  · rename_i last
    cases taken
    have unlocked : ((state.release c).move tid .idle).Consistent layout := by
     refine consistent.unlock ?_ (fun other => ?_) trivial
     · rw [stage]
       exact mem_cons_self
     · rw [stage]
       simp [Stage.holds]
    refine ⟨unlocked.placed, unlocked.owns, unlocked.good, fun other saw member => ?_⟩
    rcases mem_append.mp member with before | new
    · exact consistent.zeros other saw before
    · cases mem_singleton.mp new
      obtain ⟨rest, same, all⟩ := good
      exact ⟨rest, same, fun i elsewhere => all i elsewhere (by omega)⟩
 | wanting c i =>
  rw [stage] at good
  simp only [stage] at taken
  split at taken
  · rename_i free
    cases taken
    refine consistent.lock free (fun other => ?_) good
    rw [stage]
    simp [Stage.holds, or_comm]
  · cases taken
 | looking c i =>
  rw [stage] at good
  simp only [stage] at taken
  split at taken
  · rename_i block rest contents
    cases taken
    exact consistent.move (by rw [stage]; rfl) ⟨good.1, congrArg List.head? contents⟩
  · cases taken
    exact consistent.see (by rw [stage]; rfl) ⟨good.1, good.2.next⟩
 | stealing c i block =>
  rw [stage] at good
  simp only [stage] at taken
  cases taken
  refine consistent.take (by rw [stage]; rfl) ?_ good.2 fun _ _ _ => good.1
  rw [stage]
  exact mem_cons_of_mem _ mem_cons_self
 | stolen c i block =>
  rw [stage] at good
  simp only [stage] at taken
  cases taken
  refine consistent.unlock ?_ (fun other => ?_) trivial
  · rw [stage]
    exact mem_cons_of_mem _ mem_cons_self
  · rw [stage]
    exact mem_release good
 | passing c i =>
  rw [stage] at good
  simp only [stage] at taken
  cases taken
  refine consistent.unlock ?_ (fun other => ?_) good.2
  · rw [stage]
    exact mem_cons_of_mem _ mem_cons_self
  · rw [stage]
    exact mem_release good.1
 | freeing c pa =>
  rw [stage] at good
  simp only [stage] at taken
  split at taken
  · rename_i free
    cases taken
    refine consistent.lock free (fun other => ?_) good
    rw [stage]
    exact mem_cons
  · cases taken
 | pushing c pa =>
  rw [stage] at good
  simp only [stage] at taken
  cases taken
  refine consistent.put (by rw [stage]; rfl) ?_ good fun _ _ _ => trivial
  rw [stage]
  exact mem_cons_self
 | pushed c =>
  simp only [stage] at taken
  cases taken
  refine consistent.unlock ?_ (fun other => ?_) trivial
  · rw [stage]
    exact mem_cons_self
  · rw [stage]
    simp [Stage.holds]

theorem Consistent.pass {source target : Tid} {pa : ℕ} (idle : state.stage source = .idle)
 (different : source ≠ target) (member : pa ∈ state.held source) :
 Consistent layout { state with
  held := Function.update
   (Function.update state.held source ((state.held source).erase pa))
   target (pa :: state.held target) } where
 placed := by
  have distinct : (.inr source : Fin ncpu ⊕ Tid) ≠ .inr target :=
   fun same => different (Sum.inr.inj same)
  have moved := consistent.placed.move distinct (perm_cons_erase member) (.refl _)
  rw [Sum.update_elim_inr, Sum.update_elim_inr] at moved
  exact moved
 owns := consistent.owns
 zeros := consistent.zeros
 good tid := by
  by_cases giver : tid = source
  · subst giver
    rw [idle]
    trivial
  · refine (consistent.good tid).frame (fun _ _ => rfl) fun page has => ?_
    by_cases receiver : tid = target
    · simp_all
    · simp_all

theorem Consistent.step {event : Event ncpu Tid} (taken : state.step layout event = some next) :
 next.Consistent layout := by
 cases event with
 | kalloc tid c =>
  simp only [State.step] at taken
  split at taken
  · rename_i idle
    cases taken
    exact consistent.move (by rw [idle]; rfl) trivial
  · cases taken
 | kfree tid c pa =>
  simp only [State.step] at taken
  split at taken
  · rename_i idle
    split at taken
    · split at taken
      · rename_i member
        cases taken
        exact consistent.move (by rw [idle]; rfl) member
      · cases taken
    · cases taken
      exact consistent.move (by rw [idle]; rfl) trivial
  · cases taken
 | pass source target pa =>
  simp only [State.step] at taken
  split at taken
  · rename_i idle
    split at taken
    · rename_i both
      cases taken
      exact consistent.pass idle both.1 both.2
    · cases taken
  · cases taken
 | run tid => exact consistent.run taken

end

/-! ### Waiting -/

omit [DecidableEq Tid] in
theorem start_acyclic (free : Fin ncpu → List ℕ) :
 Acyclic (start free : State ncpu Tid).waits := by
 intro tid cycle
 obtain ⟨next, ⟨lock, want, -⟩, -⟩ := Relation.TransGen.head'_iff.mp cycle
 cases want

theorem acyclic_of_runs (acyclic : Acyclic state.waits)
 (moved : next.stage = update state.stage tid stage) (runs : stage.wants = none)
 (owned : ∀ lock other, next.lock lock = some other →
  state.lock lock = some other ∨ other = tid) :
 Acyclic next.waits := by
 have mine : (next.stage tid).wants = none := by
  rw [moved, update_self]
  exact runs
 refine acyclic.step (fun other me => ?_)
  (fun lock other own => (owned lock other own).imp_right fun here => ⟨here, mine⟩)
  (fun lock other want => ?_)
 · simp only [moved, update_of_ne me]
 · cases mine.symm.trans want

theorem acyclic_of_waits (acyclic : Acyclic state.waits)
 (foreign : ∀ lock, stage.wants = some lock → state.lock lock ≠ some tid)
 (request : (∀ lock other, stage.wants = some lock → state.lock lock = some other →
  (state.stage other).wants = none) ∨
  ∀ waiter wanted, (state.stage waiter).wants = some wanted →
   state.lock wanted ≠ some tid) :
 Acyclic (state.move tid stage).waits := by
 have moved : ((state.move tid stage).stage tid).wants = stage.wants :=
  congrArg Stage.wants (update_self _ _ _)
 have kept {other : Tid} (me : other ≠ tid) :
  ((state.move tid stage).stage other).wants = (state.stage other).wants :=
  congrArg Stage.wants (update_of_ne me _ _)
 refine acyclic.step (fun other me => kept me) (fun _ _ own => .inl own) ?_
 intro lock other want own
 have wanted : stage.wants = some lock := moved.symm.trans want
 rcases request with sink | source
 · have me : other ≠ tid := by
    rintro rfl
    exact foreign lock wanted own
   exact .inl ((kept me).trans (sink lock other wanted own))
 · refine .inr ?_
   rintro waiter ⟨next, nextWant, nextOwn⟩
   by_cases me : waiter = tid
   · subst me
     exact foreign next (moved.symm.trans nextWant) nextOwn
   · exact source waiter next ((kept me).symm.trans nextWant) nextOwn

omit [DecidableEq Tid] in
theorem owned_of_update {lock : Fin ncpu → Option Tid} {owner : Option Tid} {other : Fin ncpu}
 {holder : Tid} (mine : ∀ holder, owner = some holder → holder = tid)
 (own : update lock c owner other = some holder) :
 lock other = some holder ∨ holder = tid := by
 by_cases here : other = c
 · simp_all
 · simp_all

theorem acyclic_acquire (acyclic : Acyclic state.waits) (runs : stage.wants = none) :
 Acyclic ((state.acquire c tid).move tid stage).waits :=
 acyclic_of_runs acyclic rfl runs fun _ _ =>
  owned_of_update fun _ same => (Option.some.inj same).symm

theorem acyclic_release (acyclic : Acyclic state.waits) (runs : stage.wants = none) :
 Acyclic ((state.release c).move tid stage).waits :=
 acyclic_of_runs acyclic rfl runs fun _ _ => owned_of_update fun _ => nofun

theorem acyclic_move (acyclic : Acyclic state.waits) (runs : stage.wants = none) :
 Acyclic (state.move tid stage).waits :=
 acyclic_of_runs acyclic rfl runs fun _ _ own => .inl own

section

variable (consistent : state.Consistent layout)
include consistent

theorem Consistent.acyclic_enter (acyclic : Acyclic state.waits)
 (idle : (state.stage tid).holds = []) : Acyclic (state.move tid stage).waits := by
 have none (lock : Fin ncpu) : state.lock lock ≠ some tid := by
  rw [Ne, consistent.owner, idle]
  exact not_mem_nil
 exact acyclic_of_waits acyclic (fun lock _ => none lock) (.inr fun _ lock _ => none lock)

theorem Consistent.acyclic_run (acyclic : Acyclic state.waits) (avoids : state.avoids (.run tid))
 (taken : state.run tid = some next) : Acyclic next.waits := by
 unfold State.run at taken
 cases stage : state.stage tid with
 | idle | panicked =>
  simp only [stage] at taken
  cases taken
 | own | wanting | freeing =>
  simp only [stage] at taken
  split at taken
  · cases taken
    exact acyclic_acquire acyclic rfl
  · cases taken
 | checking | looking =>
  simp only [stage] at taken
  split at taken
  · cases taken
    exact acyclic_move acyclic rfl
  · cases taken
    exact acyclic_of_runs acyclic rfl rfl fun _ _ own => .inl own
 | taking | stealing | pushing =>
  simp only [stage] at taken
  cases taken
  exact acyclic_of_runs acyclic rfl rfl fun _ _ own => .inl own
 | taken | stolen | passing | pushed =>
  simp only [stage] at taken
  cases taken
  exact acyclic_release acyclic rfl
 | scan c i =>
  simp only [stage] at taken
  split at taken
  · rename_i within
    split at taken
    · cases taken
      exact acyclic_move acyclic rfl
    · rename_i other
      cases taken
      have own (lock : Fin ncpu) : state.lock lock = some tid ↔ lock = c := by
       rw [consistent.owner, stage]
       exact mem_singleton
      refine acyclic_of_waits acyclic ?_ ?_
      · rintro lock want mine
        cases want
        exact other ((own _).mp mine)
      · rcases avoids c ⟨i, within⟩ (by
         rw [stage]
         simp only [Stage.asks, dif_pos within, if_neg other]) with nobody | runs
        · grind
        · refine .inl fun lock holder want => ?_
          cases want
          exact runs holder
  · cases taken
    have released : Acyclic ((state.release c).move tid .idle).waits :=
     acyclic_release acyclic rfl
    exact released

theorem Consistent.acyclic_step {event : Event ncpu Tid} (acyclic : Acyclic state.waits)
 (avoids : state.avoids event) (taken : state.step layout event = some next) :
 Acyclic next.waits := by
 cases event with
 | kalloc tid c =>
  simp only [State.step] at taken
  split at taken
  · rename_i idle
    cases taken
    exact consistent.acyclic_enter acyclic (by rw [idle]; rfl)
  · cases taken
 | kfree tid c pa =>
  simp only [State.step] at taken
  split at taken
  · rename_i idle
    split at taken
    · split at taken
      · cases taken
        exact consistent.acyclic_enter acyclic (by rw [idle]; rfl)
      · cases taken
    · cases taken
      exact acyclic_move acyclic rfl
  · cases taken
 | pass source target pa =>
  simp only [State.step] at taken
  split at taken
  · split at taken
    · cases taken
      exact acyclic
    · cases taken
  · cases taken
 | run tid => exact consistent.acyclic_run acyclic avoids taken

end

structure Unstuck (layout : Layout) (state : State ncpu Tid) : Prop where
 consistent : state.Consistent layout
 acyclic : Acyclic state.waits

/-- No page is lost or given out twice, a call returns 0 only after it has seen all lists empty,
and no threads wait in a cycle unless one of them begins to wait for a thread that waits while
a third one waits for its own list. -/
theorem kalloc_conserves (layout : Layout) (free : Fin ncpu → List ℕ)
 (placed : Placed layout.Valid (Sum.elim free fun _ : Tid => []))
 (events : List (Event ncpu Tid)) (final : State ncpu Tid)
 (run : Run (ofFunction (State.step layout)) (start free) events final) :
 Placed layout.Valid (Sum.elim final.free final.held) ∧ final.SawAll ∧
  (Run (Guarded avoids (ofFunction (State.step layout))) (start free) events final →
   Acyclic final.waits) := by
 have consistent : final.Consistent layout :=
  run.invariant (start_consistent placed) fun _ _ _ before taken => before.step taken
 refine ⟨consistent.placed, consistent.zeros, fun guarded => ?_⟩
 have unstuck : final.Unstuck layout :=
  guarded.invariant ⟨start_consistent placed, start_acyclic free⟩ fun _ _ _ before taken =>
   ⟨before.consistent.step taken.2,
    before.consistent.acyclic_step before.acyclic taken.1 taken.2⟩
 exact unstuck.acyclic

/-- One page, in the list of the first of two CPUs. -/
def onePage : Layout := ⟨4096, 8192⟩

def oneFree (c : Fin 2) : List ℕ := if c.val = 0 then [4096] else []

omit [DecidableEq Tid] in
theorem onePage_placed : Placed onePage.Valid (Sum.elim oneFree fun _ : Tid => []) where
 nodup := by
  rintro (c | tid)
  · simp only [Sum.elim_inl, oneFree]
    split
    · exact nodup_singleton _
    · exact nodup_nil
  · exact nodup_nil
 known := by
  rintro (c | tid) page member
  · simp only [Sum.elim_inl, oneFree] at member
    split at member
    · cases mem_singleton.mp member
      exact ⟨rfl, Nat.le_refl _, by decide⟩
    · cases member
  · cases member
 one := by
  rintro page ⟨aligned, low, high⟩
  have only : page = 4096 := by
   simp only [onePage, pgsize] at aligned low high
   omega
  subst only
  refine ⟨.inl 0, mem_singleton.mpr rfl, ?_⟩
  rintro (c | tid) member
  · simp only [Sum.elim_inl, oneFree] at member
    split at member
    · rename_i first
      exact congrArg Sum.inl (Fin.ext first)
    · cases member
  · cases member

theorem kalloc_conserves_two : ∃ final : State 2 Bool, final.held false = [4096] ∧
 final.zeros = [(1, [1, 0])] ∧ Placed onePage.Valid (Sum.elim final.free final.held) ∧
  final.SawAll ∧ Acyclic final.waits := by
 obtain ⟨final, same, held, zeros⟩ : ∃ final : State 2 Bool,
  replay (restrict avoids (State.step onePage)) (start oneFree)
   (.kalloc false 0 :: List.replicate 4 (.run false) ++
    .kalloc true 1 :: List.replicate 8 (.run true)) = some final ∧
   final.held false = [4096] ∧ final.zeros = [(1, [1, 0])] := ⟨_, rfl, rfl, rfl⟩
 have guarded := Run.of_replay same
 obtain ⟨placed, saw, acyclic⟩ :=
  kalloc_conserves onePage oneFree onePage_placed _ final guarded.of_guarded
 grind

/-- The only page is taken.  Two threads find the lists of their CPUs empty, and each waits for
the list of the other. -/
theorem two_cpus_wait_for_each_other : ∃ final : State 2 Bool, ∃ events,
 Run (ofFunction (State.step onePage)) (start oneFree) events final ∧
  ¬ Acyclic final.waits := by
 obtain ⟨final, same, first, second, own, other⟩ : ∃ final : State 2 Bool,
  replay (State.step onePage) (start oneFree)
   (.kalloc false 0 :: List.replicate 4 (.run false) ++
    [.kalloc false 0, .kalloc true 1, .run false, .run true, .run false, .run true,
     .run false, .run false, .run true]) = some final ∧
   final.stage false = .wanting 0 1 ∧ final.stage true = .wanting 1 0 ∧
   final.lock 0 = some false ∧ final.lock 1 = some true := ⟨_, rfl, rfl, rfl, rfl, rfl⟩
 refine ⟨final, _, Run.of_replay_all same, fun acyclic => acyclic false ?_⟩
 have out : final.waits false true := ⟨1, congrArg Stage.wants first, other⟩
 have back : final.waits true false := ⟨0, congrArg Stage.wants second, own⟩
 exact .tail (.single out) back

end State

end MyNotes.Xv6.PerCpuKalloc
