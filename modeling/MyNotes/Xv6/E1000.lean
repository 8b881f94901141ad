/-
`e1000_transmit` of lab 7 and the card that empties its ring.

A call holds `e1000_lock` from its first step to its last, so that one place in the code is
enough for all threads.  The card goes round the ring on its own, from its head up to the
index in `E1000_TDT`: it reads the descriptor at its head and the packet with it, and later
completes the descriptor.  Next to the state of both, a run keeps the buffers that were put
into the ring, the packets that were read, the number of completions, the buffers that were
freed and what the calls returned.
-/

import MyNotes.Library.Transition
import Mathlib.Data.Nat.ModEq

namespace MyNotes.Xv6.E1000

open Library.Transition Function List Nat

structure Mbuf where
 head : ℕ
 len : ℕ

/-- `E1000_TXD_CMD_EOP` and `E1000_TXD_CMD_RS`. -/
structure Command where
 eop : Bool
 rs : Bool

structure TxDesc where
 addr : ℕ
 length : ℕ
 cmd : Command
 /-- `E1000_TXD_STAT_DD` in `status`. -/
 dd : Bool

/-- Where the thread with `e1000_lock` has got to; `idle` when the lock is free. -/
inductive Stage where
 | idle
 | acquired (m : Mbuf)
 | indexed (m : Mbuf) (ind : ℕ)
 | granted (m : Mbuf) (ind : ℕ)
 | refused (m : Mbuf)
 | cleared (m : Mbuf) (ind : ℕ)
 | addressed (m : Mbuf) (ind : ℕ)
 | measured (m : Mbuf) (ind : ℕ)
 | commanded (m : Mbuf) (ind : ℕ)
 | saved (m : Mbuf)
 | advanced (m : Mbuf)

def Stage.isSaved : Stage → Bool
 | .saved _ => true
 | _ => false

structure State where
 txRing : ℕ → TxDesc
 txMbufs : ℕ → Option Mbuf
 /-- `regs[E1000_TDT]`. -/
 tdt : ℕ
 /-- The head of the card. -/
 tdh : ℕ
 /-- Whether the card has read the descriptor at its head. -/
 fetched : Bool
 stage : Stage
 accepted : List Mbuf
 read : List (ℕ × ℕ)
 completed : ℕ
 freed : List Mbuf
 returned : List (Mbuf × ℤ)

inductive Event where
 | call (m : Mbuf)
 | run
 | fetch
 | complete

/-- The slot of the packet with the number `index`. -/
def slot (n first index : ℕ) : ℕ := (first + index) % n

def packet (m : Mbuf) : ℕ × ℕ := (m.head, m.len)

namespace State

/-- The ring is empty, with `E1000_TXD_STAT_DD` everywhere. -/
def start (first : ℕ) : State where
 txRing _ := ⟨0, 0, ⟨false, false⟩, true⟩
 txMbufs _ := none
 tdt := first
 tdh := first
 fetched := false
 stage := .idle
 accepted := []
 read := []
 completed := 0
 freed := []
 returned := []

def write (self : State) (ind : ℕ) (desc : TxDesc) : State :=
 { self with txRing := update self.txRing ind desc }

/-- The next step of `e1000_transmit`. -/
def run (n : ℕ) (self : State) : Option State :=
 match self.stage with
 | .idle => none
 | .acquired m => some { self with stage := .indexed m self.tdt }
 | .indexed m ind =>
  if (self.txRing ind).dd then some { self with stage := .granted m ind }
  else some { self with stage := .refused m }
 | .refused m => some { self with stage := .idle, returned := self.returned ++ [(m, -1)] }
 | .granted m ind =>
  match self.txMbufs ind with
  | some old =>
   some { self with
    stage := .cleared m ind
    freed := self.freed ++ [old]
    txMbufs := update self.txMbufs ind none }
  | none => some { self with stage := .cleared m ind }
 | .cleared m ind =>
  some { self.write ind { self.txRing ind with addr := m.head } with
   stage := .addressed m ind }
 | .addressed m ind =>
  some { self.write ind { self.txRing ind with length := m.len } with
   stage := .measured m ind }
 | .measured m ind =>
  some { self.write ind { self.txRing ind with cmd := ⟨true, true⟩ } with
   stage := .commanded m ind }
 | .commanded m ind =>
  some { self with
   stage := .saved m
   txMbufs := update self.txMbufs ind (some m) }
 | .saved m =>
  some { self with
   stage := .advanced m
   tdt := (self.tdt + 1) % n
   accepted := self.accepted ++ [m] }
 | .advanced m => some { self with stage := .idle, returned := self.returned ++ [(m, 0)] }

def step (n : ℕ) (self : State) : Event → Option State
 | .call m =>
  match self.stage with
  | .idle => some { self with stage := .acquired m }
  | _ => none
 | .run => self.run n
 | .fetch =>
  if self.tdh ≠ self.tdt ∧ self.fetched = false then
   let desc := self.txRing self.tdh
   some { self with fetched := true, read := self.read ++ [(desc.addr, desc.length)] }
  else none
 | .complete =>
  if self.fetched then
   let desc := self.txRing self.tdh
   some { self.write self.tdh { desc with dd := desc.dd || desc.cmd.rs } with
    fetched := false
    tdh := (self.tdh + 1) % n
    completed := self.completed + 1 }
  else none

/-- `E1000_TDT` is not moved on to the head of the card, which would take the ring for empty. -/
def avoids (n : ℕ) (self : State) : Event → Prop
 | .run => self.stage.isSaved → (self.tdt + 1) % n ≠ self.tdh
 | _ => True

instance (n : ℕ) (state : State) : ∀ event, Decidable (state.avoids n event)
 | .call _ | .fetch | .complete => .isTrue trivial
 | .run => inferInstanceAs (Decidable (state.stage.isSaved → (state.tdt + 1) % n ≠ state.tdh))

def sent (state : State) : List Mbuf :=
 (state.returned.filter fun call => call.2 = 0).map Prod.fst

def Outstanding (n first : ℕ) (state : State) (ind : ℕ) : Prop :=
 ∃ index, state.completed ≤ index ∧ index < state.accepted.length ∧ slot n first index = ind

end State

structure Filled (desc : TxDesc) (m : Mbuf) : Prop where
 addr : desc.addr = m.head
 length : desc.length = m.len
 cmd : desc.cmd = ⟨true, true⟩

/-- What a caller of `e1000_transmit` relies on. -/
structure Delivered (n first : ℕ) (state : State) : Prop where
 sent : state.sent <+: state.accepted
 read : state.read <+: state.accepted.map packet
 /-- The card stops when it has read all packets. -/
 all : state.tdh = state.tdt → state.read = state.accepted.map packet
 completed : state.completed ≤ state.read.length
 pending : ∀ index m, state.completed ≤ index → state.accepted[index]? = some m →
  Filled (state.txRing (slot n first index)) m ∧ state.txMbufs (slot n first index) = some m
 freed : state.freed <+: state.accepted
 late : state.freed.length ≤ state.completed
 /-- A call is refused for a packet that is still in the slot, and for nothing else. -/
 refused : ∀ m ind next, state.stage = .indexed m ind → state.run n = some next →
  (next.stage = .refused m ↔ state.Outstanding n first state.tdt)

/-! ### Slots -/

variable {n first : ℕ}

theorem slot_succ (index : ℕ) : (slot n first index + 1) % n = slot n first (index + 1) := by
 unfold slot
 rw [mod_add_mod, add_assoc]

theorem slot_add (index : ℕ) : slot n first (index + n) = slot n first index := by
 unfold slot
 rw [← add_assoc, add_mod_right]

theorem slot_ne {left right : ℕ} (before : left < right) (near : right < left + n) :
 slot n first left ≠ slot n first right := by
 intro same
 have congruent : left ≡ right [MOD n] := Nat.ModEq.add_left_cancel' first same
 have divides := (Nat.modEq_iff_dvd' (Nat.le_of_lt before)).mp congruent
 have far := Nat.le_of_dvd (Nat.sub_pos_of_lt before) divides
 omega

theorem take_prefix_get {items taken : List Mbuf} {item : Mbuf} (isPrefix : taken <+: items)
 (here : items[taken.length]? = some item) : taken ++ [item] <+: items := by
 obtain ⟨rest, rfl⟩ := isPrefix
 rw [getElem?_append_right (Nat.le_refl _), Nat.sub_self] at here
 cases rest with
 | nil => cases here
 | cons head rest =>
  simp_all

/-! ### The invariant -/

/-- What holds whatever the thread with the lock is doing. -/
structure Sound (n first : ℕ) (state : State) : Prop where
 tail : state.tdt = slot n first state.accepted.length
 head : state.tdh = slot n first state.completed
 drained : state.completed + state.fetched.toNat ≤ state.accepted.length
 room : state.accepted.length < state.completed + n
 dd : ∀ ind, (state.txRing ind).dd = true
 read : state.read =
  (state.accepted.take (state.completed + state.fetched.toNat)).map packet
 freed : state.freed <+: state.accepted
 lower : state.accepted.length ≤ state.freed.length + n
 upper : state.freed.length ≤ state.accepted.length + 1 - n
 pending : ∀ {index m}, state.completed ≤ index → state.accepted[index]? = some m →
  Filled (state.txRing (slot n first index)) m
 kept : ∀ {index m}, state.freed.length ≤ index → state.accepted[index]? = some m →
  state.txMbufs (slot n first index) = some m
 empty : ∀ {index}, state.accepted.length < index → index < state.freed.length + n →
  state.txMbufs (slot n first index) = none

/-- The slot at `E1000_TDT` has no buffer unless its old one has still to be freed. -/
def TailEmpty (n : ℕ) (state : State) : Prop :=
 state.accepted.length < state.freed.length + n → state.txMbufs state.tdt = none

/-- The slot at `E1000_TDT` is being filled. -/
def Filling (n : ℕ) (state : State) (ind : ℕ) : Prop :=
 ind = state.tdt ∧ state.sent = state.accepted ∧
  state.accepted.length < state.freed.length + n

def Stage.Good (n : ℕ) (state : State) : Stage → Prop
 | .idle | .acquired _ => state.sent = state.accepted ∧ TailEmpty n state
 | .indexed _ ind | .granted _ ind =>
  ind = state.tdt ∧ state.sent = state.accepted ∧ TailEmpty n state
 | .refused _ => False
 | .cleared _ ind => Filling n state ind ∧ TailEmpty n state
 | .addressed m ind => Filling n state ind ∧ (state.txRing ind).addr = m.head
 | .measured m ind => Filling n state ind ∧ (state.txRing ind).addr = m.head ∧
  (state.txRing ind).length = m.len
 | .commanded m ind => Filling n state ind ∧ Filled (state.txRing ind) m
 | .saved m => Filling n state state.tdt ∧ Filled (state.txRing state.tdt) m ∧
  state.txMbufs state.tdt = some m
 | .advanced m => state.accepted = state.sent ++ [m] ∧ TailEmpty n state

structure Consistent (n first : ℕ) (state : State) : Prop where
 sound : Sound n first state
 stage : state.stage.Good n state

theorem start_consistent (within : first < n) : Consistent n first (State.start first) where
 sound :=
  { tail := (Nat.mod_eq_of_lt within).symm
    head := (Nat.mod_eq_of_lt within).symm
    drained := Nat.le_refl 0
    room := Nat.lt_of_le_of_lt (Nat.zero_le _) (Nat.lt_add_left 0 within)
    dd := fun _ => rfl
    read := rfl
    freed := nil_prefix
    lower := Nat.zero_le _
    upper := Nat.zero_le _
    pending := fun _ none => by cases none
    kept := fun _ none => by cases none
    empty := fun _ _ => rfl }
 stage := ⟨rfl, fun _ => rfl⟩

variable {state next : State} {m : Mbuf} {ind : ℕ}

section

variable (sound : Sound n first state)
include sound

theorem Sound.move (stage : Stage) (returned : List (Mbuf × ℤ)) :
 Sound n first { state with stage := stage, returned := returned } :=
 { sound with }

theorem Sound.write {desc : TxDesc} (dd : desc.dd = true) :
 Sound n first (state.write state.tdt desc) :=
 { sound with
  dd := by
   intro other
   change (update state.txRing state.tdt desc other).dd = true
   by_cases here : other = state.tdt
   · rw [here, update_self]
     exact dd
   · rw [update_of_ne here]
     exact sound.dd other
  pending := by
   intro index m late here
   change state.accepted[index]? = some m at here
   change Filled (update state.txRing state.tdt desc _) m
   have within := (List.getElem?_eq_some_iff.mp here).1
   rw [sound.tail, update_of_ne (slot_ne within _)]
   · exact sound.pending late here
   · exact Nat.lt_of_lt_of_le sound.room (Nat.add_le_add_right late n) }

theorem Sound.old {old : Mbuf} (tailEmpty : TailEmpty n state)
 (here : state.txMbufs state.tdt = some old) :
 state.accepted.length = state.freed.length + n ∧
  state.accepted[state.freed.length]? = some old := by
 have full : state.accepted.length = state.freed.length + n := by
  refine Nat.le_antisymm sound.lower (Nat.le_of_not_lt fun room => ?_)
  cases (tailEmpty room).symm.trans here
 have positive : state.freed.length < state.accepted.length := by
  have room := sound.room
  have drained := sound.drained
  omega
 refine ⟨full, ?_⟩
 have kept := sound.kept (Nat.le_refl _) (getElem?_eq_getElem positive)
 rw [← slot_add, ← full, ← sound.tail, here] at kept
 rw [getElem?_eq_getElem positive, kept]

theorem Sound.vacant (none : state.txMbufs state.tdt = none) :
 state.accepted.length < state.freed.length + n := by
 refine lt_of_le_of_ne sound.lower fun full => ?_
 have positive : state.freed.length < state.accepted.length := by
  have room := sound.room
  have drained := sound.drained
  omega
 have kept := sound.kept (le_refl _) (getElem?_eq_getElem positive)
 rw [← slot_add, ← full, ← sound.tail, none] at kept
 cases kept

theorem Sound.free {old : Mbuf} (tailEmpty : TailEmpty n state)
 (here : state.txMbufs state.tdt = some old) :
 Sound n first { state with
  freed := state.freed ++ [old]
  txMbufs := update state.txMbufs state.tdt none } := by
 obtain ⟨full, oldest⟩ := sound.old tailEmpty here
 have length : (state.freed ++ [old]).length = state.freed.length + 1 := length_append
 exact { sound with
  freed := take_prefix_get sound.freed oldest
  lower := by
   simp_all
  upper := by
   grind
  kept := by
   intro index m late here
   change (state.freed ++ [old]).length ≤ index at late
   change state.accepted[index]? = some m at here
   change update state.txMbufs state.tdt none _ = some m
   have within := (List.getElem?_eq_some_iff.mp here).1
   rw [sound.tail, update_of_ne (slot_ne within _)]
   · exact sound.kept (by omega) here
   · omega
  empty := by
   grind }

theorem Sound.save (cleared : state.accepted.length < state.freed.length + n) (m : Mbuf) :
 Sound n first
  { state with txMbufs := update state.txMbufs state.tdt (some m) } :=
 { sound with
  kept := by
   intro index other late here
   change state.freed.length ≤ index at late
   change state.accepted[index]? = some other at here
   change update state.txMbufs state.tdt (some m) _ = some other
   have within := (List.getElem?_eq_some_iff.mp here).1
   rw [sound.tail, update_of_ne (slot_ne within _)]
   · exact sound.kept late here
   · omega
  empty := by
   intro index beyond within
   change state.accepted.length < index at beyond
   change index < state.freed.length + n at within
   change update state.txMbufs state.tdt (some m) _ = none
   have old := sound.freed.length_le
   rw [sound.tail, update_of_ne (slot_ne beyond _).symm]
   · exact sound.empty beyond within
   · omega }

theorem Sound.advance (cleared : state.accepted.length < state.freed.length + n)
 (filled : Filled (state.txRing state.tdt) m) (saved : state.txMbufs state.tdt = some m)
 (avoids : (state.tdt + 1) % n ≠ state.tdh) :
 Sound n first { state with
  tdt := (state.tdt + 1) % n
  accepted := state.accepted ++ [m] } := by
 have length : (state.accepted ++ [m]).length = state.accepted.length + 1 := length_append
 have room : state.accepted.length + 1 < state.completed + n := by
  refine lt_of_le_of_ne sound.room fun full => avoids ?_
  rw [sound.tail, slot_succ, full, slot_add, sound.head]
 have cases_get {index : ℕ} {other : Mbuf} (here : (state.accepted ++ [m])[index]? = some other) :
  state.accepted[index]? = some other ∨ index = state.accepted.length ∧ other = m := by
  rcases lt_or_ge index state.accepted.length with before | after
  · grind
  · have within := (List.getElem?_eq_some_iff.mp here).1
    have last : index = state.accepted.length := by omega
    simp_all
 exact { sound with
  tail := by
   rw [sound.tail, slot_succ, length]
  drained := by
   rw [length]
   exact le_succ_of_le sound.drained
  room := by
   simp_all
  read := by
   rw [take_append_of_le_length sound.drained]
   exact sound.read
  freed := sound.freed.trans (prefix_append _ _)
  lower := by
   grind
  upper := by
   have upper := sound.upper
   grind
  pending := by
   intro index other late here
   rcases cases_get here with before | ⟨last, same⟩
   · exact sound.pending late before
   · rw [last, same, ← sound.tail]
     exact filled
  kept := by
   intro index other late here
   rcases cases_get here with before | ⟨last, same⟩
   · exact sound.kept late before
   · rw [last, same, ← sound.tail]
     exact saved
  empty := by
   intro index beyond within
   change (state.accepted ++ [m]).length < index at beyond
   exact sound.empty (by omega) within }

theorem Sound.fetch (ready : state.tdh ≠ state.tdt) (fetched : state.fetched = false) :
 Sound n first { state with
  fetched := true
  read := state.read ++
   [((state.txRing state.tdh).addr, (state.txRing state.tdh).length)] } := by
 have drained := sound.drained
 have read := sound.read
 simp only [fetched, Bool.toNat_false, add_zero] at drained read
 have within : state.completed < state.accepted.length := by
  refine lt_of_le_of_ne drained fun same => ready ?_
  rw [sound.head, sound.tail, same]
 have filled := sound.pending (le_refl _) (getElem?_eq_getElem within)
 rw [← sound.head] at filled
 exact { sound with
  drained := within
  read := by
   change state.read ++ _ = (state.accepted.take (state.completed + 1)).map packet
   rw [take_succ_eq_append_getElem within, map_append, ← read, filled.addr,
    filled.length]
   rfl }

theorem Sound.complete (fetched : state.fetched = true) :
 Sound n first { state with
  fetched := false
  tdh := (state.tdh + 1) % n
  completed := state.completed + 1 } := by
 have drained := sound.drained
 have read := sound.read
 have room := sound.room
 simp only [fetched, Bool.toNat_true] at drained read
 exact { sound with
  head := by
   rw [sound.head, slot_succ]
  drained := drained
  room := by
   grind
  read := read
  pending := fun late => sound.pending (le_of_succ_le late) }

end

/-! ### Steps -/

theorem write_self (desc : TxDesc) : (state.write ind desc).txRing ind = desc := by
 exact update_self _ _ _

theorem sent_append (m : Mbuf) :
 State.sent { state with returned := state.returned ++ [(m, 0)] } = state.sent ++ [m] := by
 unfold State.sent
 simp

theorem Consistent.run (consistent : Consistent n first state)
 (avoids : state.avoids n .run) (taken : state.run n = some next) :
 Consistent n first next := by
 have sound := consistent.sound
 have good := consistent.stage
 unfold State.run at taken
 cases stage : state.stage with
 | idle =>
  simp only [stage] at taken
  cases taken
 | acquired m =>
  simp only [stage] at taken good
  cases taken
  exact ⟨sound.move _ _, rfl, good⟩
 | indexed m ind =>
  simp only [stage] at taken good
  rw [if_pos (sound.dd ind)] at taken
  cases taken
  exact ⟨sound.move _ _, good⟩
 | refused m =>
  rw [stage] at good
  exact good.elim
 | granted m ind =>
  simp only [stage] at taken good
  obtain ⟨rfl, sent, tailEmpty⟩ := good
  split at taken
  · rename_i old here
    cases taken
    obtain ⟨full, -⟩ := sound.old tailEmpty here
    refine ⟨(sound.free tailEmpty here).move _ _, ⟨rfl, sent, ?_⟩, fun _ => ?_⟩
    · simp_all
    · exact update_self _ _ _
  · rename_i here
    cases taken
    exact ⟨sound.move _ _, ⟨rfl, sent, sound.vacant here⟩, fun _ => here⟩
 | cleared m ind =>
  simp only [stage] at taken good
  obtain ⟨⟨rfl, sent, cleared⟩, -⟩ := good
  cases taken
  let desc := { state.txRing state.tdt with addr := m.head }
  have written : Sound n first (state.write state.tdt desc) := sound.write (sound.dd state.tdt)
  have here : (state.write state.tdt desc).txRing state.tdt = desc := write_self desc
  exact ⟨written.move _ _, ⟨rfl, sent, cleared⟩, congrArg TxDesc.addr here⟩
 | addressed m ind =>
  simp only [stage] at taken good
  obtain ⟨⟨rfl, sent, cleared⟩, addr⟩ := good
  cases taken
  let desc := { state.txRing state.tdt with length := m.len }
  have written : Sound n first (state.write state.tdt desc) := sound.write (sound.dd state.tdt)
  have here : (state.write state.tdt desc).txRing state.tdt = desc := write_self desc
  exact ⟨written.move _ _, ⟨rfl, sent, cleared⟩, (congrArg TxDesc.addr here).trans addr,
   congrArg TxDesc.length here⟩
 | measured m ind =>
  simp only [stage] at taken good
  obtain ⟨⟨rfl, sent, cleared⟩, addr, length⟩ := good
  cases taken
  let desc := { state.txRing state.tdt with cmd := ⟨true, true⟩ }
  have written : Sound n first (state.write state.tdt desc) := sound.write (sound.dd state.tdt)
  have here : (state.write state.tdt desc).txRing state.tdt = desc := write_self desc
  exact ⟨written.move _ _, ⟨rfl, sent, cleared⟩, (congrArg TxDesc.addr here).trans addr,
   (congrArg TxDesc.length here).trans length, congrArg TxDesc.cmd here⟩
 | commanded m ind =>
  simp only [stage] at taken good
  obtain ⟨⟨rfl, sent, cleared⟩, filled⟩ := good
  cases taken
  refine ⟨(sound.save cleared m).move _ _, ⟨rfl, sent, cleared⟩, filled, ?_⟩
  exact update_self _ _ _
 | saved m =>
  simp only [stage] at taken good
  simp only [State.avoids, stage] at avoids
  replace avoids := avoids rfl
  obtain ⟨⟨-, sent, cleared⟩, filled, saved⟩ := good
  cases taken
  have advanced := sound.advance cleared filled saved avoids
  refine ⟨advanced.move _ _, congrArg (· ++ [m]) sent.symm, fun room => ?_⟩
  rw [length_append] at room
  have empty := sound.empty (lt_succ_self _) room
  rw [← slot_succ, ← sound.tail] at empty
  exact empty
 | advanced m =>
  simp only [stage] at taken good
  cases taken
  exact ⟨sound.move _ _, (sent_append m).trans good.1.symm, good.2⟩

theorem Consistent.step {event : Event} (consistent : Consistent n first state)
 (avoids : state.avoids n event) (taken : state.step n event = some next) :
 Consistent n first next := by
 have sound := consistent.sound
 cases event with
 | call m =>
  simp only [State.step] at taken
  split at taken
  · rename_i idle
    cases taken
    have good := consistent.stage
    rw [idle] at good
    exact ⟨sound.move _ _, good⟩
  · cases taken
 | run => exact consistent.run avoids taken
 | fetch =>
  simp only [State.step] at taken
  split at taken
  · rename_i ready
    cases taken
    exact ⟨sound.fetch ready.1 ready.2, consistent.stage⟩
  · cases taken
 | complete =>
  simp only [State.step] at taken
  split at taken
  · rename_i fetched
    cases taken
    -- `E1000_TXD_STAT_DD` has been set all the time
    have kept : state.write state.tdh { state.txRing state.tdh with
     dd := (state.txRing state.tdh).dd || (state.txRing state.tdh).cmd.rs } = state := by
     unfold State.write
     rw [sound.dd, Bool.true_or, ← sound.dd state.tdh, update_eq_self]
    rw [kept]
    exact ⟨sound.complete fetched, consistent.stage⟩
  · cases taken

theorem Sound.not_outstanding (sound : Sound n first state) :
 ¬ state.Outstanding n first state.tdt := by
 rintro ⟨index, late, within, same⟩
 rw [sound.tail] at same
 refine slot_ne within ?_ same
 exact Nat.lt_of_lt_of_le sound.room (Nat.add_le_add_right late n)

theorem Consistent.delivered (consistent : Consistent n first state) :
 Delivered n first state := by
 have sound := consistent.sound
 have upper := sound.upper
 have room := sound.room
 have drained := sound.drained
 have late : state.freed.length ≤ state.completed := by omega
 refine ⟨?_, ?_, fun stopped => ?_, ?_, fun index m pending here => ?_, sound.freed, late,
  fun m ind next stage taken => ?_⟩
 · have good := consistent.stage
   cases stage : state.stage with
   | idle | acquired => rw [stage] at good; exact good.1 ▸ prefix_rfl
   | indexed | granted => rw [stage] at good; exact good.2.1 ▸ prefix_rfl
   | refused => rw [stage] at good; exact good.elim
   | cleared | addressed | measured | commanded | saved =>
    rw [stage] at good
    exact good.1.2.1 ▸ prefix_rfl
   | advanced m => rw [stage] at good; exact ⟨[m], good.1.symm⟩
 · rw [sound.read]
   exact ( take_prefix _ _).map packet
 · have same : state.completed = state.accepted.length := by
    by_contra different
    have before : state.completed < state.accepted.length := by omega
    rw [sound.head, sound.tail] at stopped
    exact slot_ne before room stopped
   rw [sound.read, take_of_length_le (by omega)]
 · rw [sound.read, length_map, length_take]
   omega
 · exact ⟨sound.pending pending here, sound.kept (le_trans late pending) here⟩
 · unfold State.run at taken
   simp only [stage] at taken
   rw [if_pos (sound.dd ind)] at taken
   cases taken
   exact iff_of_false (fun same => by cases same) sound.not_outstanding

/-- While the ring keeps a free slot, the packets are read in the order of the calls, and nothing
is touched that the card has still to complete. -/
theorem e1000_transmit_delivers (n first : ℕ) (within : first < n) (events : List Event)
 (final : State) (run : Run (Guarded (State.avoids n) (ofFunction (State.step n)))
  (State.start first) events final) : Delivered n first final := by
 have consistent : Consistent n first final :=
  run.invariant (start_consistent within) fun _ _ _ before taken =>
   before.step taken.1 taken.2
 exact consistent.delivered

def callEvents (m : Mbuf) : List Event := .call m :: List.replicate 9 .run

theorem e1000_transmit_delivers_one : ∃ final : State, final.returned = [(⟨100, 42⟩, 0)] ∧
 final.read = [(100, 42)] ∧ Delivered 2 0 final := by
 obtain ⟨final, same, returned, read⟩ : ∃ final,
  replay (restrict (State.avoids 2) (State.step 2)) (State.start 0)
   (callEvents ⟨100, 42⟩ ++ [.fetch, .complete]) = some final ∧
   final.returned = [(⟨100, 42⟩, 0)] ∧ final.read = [(100, 42)] := ⟨_, rfl, rfl, rfl⟩
 exact ⟨final, returned, read,
  e1000_transmit_delivers 2 0 Nat.zero_lt_two _ final (Run.of_replay same)⟩

/-- Three calls fill a ring of two slots before the card reads anything.  The third finds the
bit that was set from the start, and frees the first packet. -/
theorem stale_bit_frees_unread : ∃ final : State, ∃ events,
 Run (ofFunction (State.step 2)) (State.start 0) events final ∧ final.read = [] ∧
  final.freed = [⟨100, 42⟩] ∧ ¬ Delivered 2 0 final := by
 obtain ⟨final, same, read, freed, completed⟩ : ∃ final,
  replay (State.step 2) (State.start 0)
   (callEvents ⟨100, 42⟩ ++ callEvents ⟨200, 42⟩ ++ callEvents ⟨300, 42⟩) = some final ∧
   final.read = [] ∧ final.freed = [⟨100, 42⟩] ∧ final.completed = 0 :=
  ⟨_, rfl, rfl, rfl, rfl⟩
 refine ⟨final, _, Run.of_replay_all same, read, freed, fun delivered => ?_⟩
 have late := delivered.late
 simp_all

end MyNotes.Xv6.E1000
