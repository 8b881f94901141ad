/-
`e1000_recv` of lab 7 and the card that fills its ring.

One activation of the driver runs at a time; the card goes on between any two of its steps.  The
card fills the descriptor at its head unless that is the one in `E1000_RDT`: it stores a packet
in the buffer of the descriptor, and later writes the length and `E1000_RXD_STAT_DD`.  An mbuf is
known by its `head`.  The network stack frees the mbufs that `net_rx` got, and `mbufalloc` returns
one that is not in use.  Next to the state of both sides, a run keeps the packets that were
stored, what `net_rx` got, and how often `E1000_RDT` was moved.
-/

import MyNotes.Xv6.E1000

namespace MyNotes.Xv6.E1000Receive

open Library.Transition Function List Option Nat
open MyNotes.Xv6.E1000 (slot slot_succ slot_add slot_ne)

abbrev Packet := List UInt8

structure RxDesc where
 addr : ℕ
 length : ℕ
 /-- `E1000_RXD_STAT_DD` in `status`. -/
 dd : Bool

inductive Stage where
 | idle
 | looping
 | indexed (ind : ℕ)
 | ready (ind : ℕ)
 | measured (ind : ℕ)
 | handed (ind : ℕ)
 | allocated (ind : ℕ)
 | addressed (ind : ℕ)
 | cleared (ind : ℕ)
 deriving DecidableEq

structure State where
 rxRing : ℕ → RxDesc
 rxMbufs : ℕ → ℕ
 /-- `regs[E1000_RDT]`. -/
 rdt : ℕ
 /-- The head of the card. -/
 rdh : ℕ
 /-- The packet that the card has stored without completing its descriptor. -/
 storing : Option Packet
 /-- The bytes in each mbuf. -/
 memory : ℕ → Packet
 /-- `len` of each mbuf. -/
 len : ℕ → ℕ
 /-- The mbufs of the network stack. -/
 held : List ℕ
 stage : Stage
 stored : List Packet
 received : List (ℕ × Packet)
 advanced : ℕ

inductive Event where
 /-- An interrupt. -/
 | recv
 | run
 /-- `mbufalloc(0)` and what it returns. -/
 | alloc (m : ℕ)
 | free (m : ℕ)
 | store (packet : Packet)
 | complete

/-- What `net_rx` is to get of a packet. -/
def whole (packet : Packet) : ℕ × Packet := (packet.length, packet)

namespace State

/-- All descriptors have been handed to the card with the given mbufs. -/
def start (n first : ℕ) (mbufs : ℕ → ℕ) : State where
 rxRing ind := ⟨mbufs ind, 0, false⟩
 rxMbufs := mbufs
 rdt := first
 rdh := (first + 1) % n
 storing := none
 memory _ := []
 len _ := 0
 held := []
 stage := .idle
 stored := []
 received := []
 advanced := 0

def write (self : State) (ind : ℕ) (desc : RxDesc) : State :=
 { self with rxRing := update self.rxRing ind desc }

/-- The next step of `e1000_recv`. -/
def run (n : ℕ) (self : State) : Option State :=
 match self.stage with
 | .looping => some { self with stage := .indexed ((self.rdt + 1) % n) }
 | .indexed ind =>
  if (self.rxRing ind).dd then some { self with stage := .ready ind }
  else some { self with stage := .idle }
 | .ready ind =>
  some { self with
   stage := .measured ind
   len := update self.len (self.rxMbufs ind) (self.rxRing ind).length }
 | .measured ind =>
  let m := self.rxMbufs ind
  some { self with
   stage := .handed ind
   held := m :: self.held
   received := self.received ++ [(self.len m, self.memory m)] }
 | .allocated ind =>
  some { self.write ind { self.rxRing ind with addr := self.rxMbufs ind } with
   stage := .addressed ind }
 | .addressed ind =>
  some { self.write ind { self.rxRing ind with dd := false } with stage := .cleared ind }
 | .cleared ind =>
  some { self with stage := .looping, rdt := ind, advanced := self.advanced + 1 }
 | _ => none

/-- A buffer that is neither in the ring nor with the network stack. -/
def Unused (n : ℕ) (self : State) (ind m : ℕ) : Prop :=
 m ∉ self.held ∧ ∀ other < n, other ≠ ind → self.rxMbufs other ≠ m

instance (n : ℕ) (self : State) (ind m : ℕ) : Decidable (self.Unused n ind m) :=
 inferInstanceAs (Decidable (_ ∧ ∀ other < n, other ≠ ind → self.rxMbufs other ≠ m))

def step (n : ℕ) (self : State) : Event → Option State
 | .recv =>
  match self.stage with
  | .idle => some { self with stage := .looping }
  | _ => none
 | .run => self.run n
 | .alloc m =>
  match self.stage with
  | .handed ind =>
   if self.Unused n ind m then
    some { self with
     stage := .allocated ind
     rxMbufs := update self.rxMbufs ind m }
   else none
  | _ => none
 | .free m => if m ∈ self.held then some { self with held := self.held.erase m } else none
 | .store packet =>
  if self.rdh ≠ self.rdt ∧ self.storing = none then
   some { self with
    storing := some packet
    memory := update self.memory (self.rxRing self.rdh).addr packet }
  else none
 | .complete =>
  self.storing.map fun packet =>
   { self.write self.rdh
    { self.rxRing self.rdh with length := packet.length, dd := true } with
    storing := none
    rdh := (self.rdh + 1) % n
    stored := self.stored ++ [packet] }

/-- The card may fill the slot before `E1000_RDT` is moved again. -/
def Offered (n : ℕ) (self : State) (ind : ℕ) : Prop :=
 ∃ offset, ind = (self.rdh + offset) % n ∧ ∀ before ≤ offset, (self.rdh + before) % n ≠ self.rdt

end State

structure Delivered (n : ℕ) (state : State) : Prop where
 /-- Every packet that was stored comes to the network stack once, in order. -/
 received : state.received <+: state.stored.map whole
 /-- The mbuf of a slot that may be filled has not been handed over, and is in no other slot. -/
 offered : ∀ ind, state.Offered n ind →
  (state.rxRing ind).addr = state.rxMbufs ind ∧ state.rxMbufs ind ∉ state.held ∧
   ∀ other < n, other ≠ ind → state.rxMbufs other ≠ state.rxMbufs ind
 /-- The driver returns when it has seen the next slot without a packet, and has left none. -/
 returned : ∀ next, state.run n = some next → next.stage = .idle →
  (state.rxRing ((state.rdt + 1) % n)).dd = false ∧
   state.received = state.stored.map whole

/-! ### The invariant -/

def Stage.past : Stage → Bool
 | .handed _ | .allocated _ | .addressed _ | .cleared _ => true
 | _ => false

def Stage.busy : Stage → Option ℕ
 | .ready ind | .measured ind | .handed ind | .allocated ind | .addressed ind | .cleared ind =>
  some ind
 | _ => none

structure Filled (state : State) (ind : ℕ) (packet : Packet) : Prop where
 dd : (state.rxRing ind).dd = true
 length : (state.rxRing ind).length = packet.length
 memory : state.memory (state.rxMbufs ind) = packet

/-- What holds whatever the driver is doing; the packet with the number `index` is in the slot
with the number `index + 1`. -/
structure Sound (n first : ℕ) (state : State) : Prop where
 tail : state.rdt = slot n first state.advanced
 head : state.rdh = slot n first (state.stored.length + 1)
 lower : state.advanced ≤ state.stored.length
 upper : state.stored.length + 1 + state.storing.isSome.toNat ≤ state.advanced + n
 received : state.received =
  (state.stored.take (state.advanced + state.stage.past.toNat)).map whole
 pending : ∀ {index packet}, state.advanced + state.stage.past.toNat ≤ index →
  state.stored[index]? = some packet → Filled state (slot n first (index + 1)) packet
 empty : ∀ {index}, state.stored.length ≤ index → index < state.advanced + n →
  (state.rxRing (slot n first (index + 1))).dd = false
 storing : ∀ {packet}, state.storing = some packet →
  state.memory (state.rxMbufs state.rdh) = packet
 addr : ∀ {ind}, ind < n → state.stage ≠ .allocated ind →
  (state.rxRing ind).addr = state.rxMbufs ind
 distinct : ∀ {ind other}, ind < n → other < n → ind ≠ other →
  state.rxMbufs ind ≠ state.rxMbufs other
 fresh : ∀ {ind}, ind < n → state.stage ≠ .handed ind → state.rxMbufs ind ∉ state.held

/-- The driver is at the slot behind `E1000_RDT`, and has found a packet in it. -/
def Stage.Good (n first : ℕ) (state : State) : Stage → Prop
 | .idle | .looping => True
 | .indexed ind => ind = slot n first (state.advanced + 1)
 | .ready ind | .handed ind | .allocated ind | .addressed ind =>
  ind = slot n first (state.advanced + 1) ∧ state.advanced < state.stored.length
 | .measured ind =>
  (ind = slot n first (state.advanced + 1) ∧ state.advanced < state.stored.length) ∧
   ∀ packet, state.stored[state.advanced]? = some packet →
    state.len (state.rxMbufs ind) = packet.length
 | .cleared ind =>
  (ind = slot n first (state.advanced + 1) ∧ state.advanced < state.stored.length) ∧
   (state.rxRing ind).dd = false

structure Consistent (n first : ℕ) (state : State) : Prop where
 sound : Sound n first state
 stage : state.stage.Good n first state

variable {n first : ℕ} {state next : State} {ind : ℕ}

theorem slot_lt (positive : 0 < n) (index : ℕ) : slot n first index < n := mod_lt _ positive

theorem start_consistent {mbufs : ℕ → ℕ} (within : first < n)
 (distinct : ∀ {ind other}, ind < n → other < n → ind ≠ other → mbufs ind ≠ mbufs other) :
 Consistent n first (State.start n first mbufs) where
 sound :=
  { tail := (mod_eq_of_lt within).symm
    head := rfl
    lower := le_refl 0
    upper := by
     change 0 + 1 + 0 ≤ 0 + n
     omega
    received := rfl
    pending := fun _ none => by cases none
    empty := fun _ _ => rfl
    storing := fun none => by cases none
    addr := fun _ _ => rfl
    distinct := distinct
    fresh := fun _ _ => not_mem_nil }
 stage := trivial

theorem Consistent.busy (consistent : Consistent n first state)
 (here : state.stage.busy = some ind) :
 ind = slot n first (state.advanced + 1) ∧ state.advanced < state.stored.length := by
 have good := consistent.stage
 cases stage : state.stage with
 | idle | looping | indexed =>
  rw [stage] at here
  cases here
 | ready | handed | allocated | addressed =>
  rw [stage] at here good
  cases here
  exact good
 | measured | cleared =>
  rw [stage] at here good
  cases here
  exact good.1

variable {index : ℕ}

section

variable (consistent : Consistent n first state)
include consistent

theorem Consistent.ne_busy (here : state.stage.busy = some ind) (late : state.stored.length ≤ index)
 (within : index < state.advanced + n) : slot n first (index + 1) ≠ ind := by
 obtain ⟨rfl, packet⟩ := consistent.busy here
 exact (slot_ne (by omega) (by omega)).symm

theorem Consistent.head_ne_busy (here : state.stage.busy = some ind) : state.rdh ≠ ind := by
 have upper := consistent.sound.upper
 rw [consistent.sound.head]
 exact consistent.ne_busy here (le_refl _) (by omega)

theorem Consistent.later_ne_busy (here : state.stage.busy = some ind)
 (late : state.advanced + 1 ≤ index) (before : index < state.stored.length) :
 slot n first (index + 1) ≠ ind := by
 have upper := consistent.sound.upper
 rw [(consistent.busy here).1]
 exact (slot_ne (by omega) (by omega)).symm

end

theorem Sound.ne_head (sound : Sound n first state)
 (room : state.stored.length + 1 <
 state.advanced + n) (reached : state.advanced ≤ index) (before : index < state.stored.length) :
 slot n first (index + 1) ≠ state.rdh := by
 rw [sound.head]
 exact slot_ne (by omega) (by omega)

/-! ### The steps of the driver -/

theorem Sound.move (sound : Sound n first state) {stage : Stage} (len : ℕ → ℕ)
 (before : state.stage.past = false) (after : stage.past = false) :
 Sound n first { state with stage := stage, len := len } :=
 { sound with
  received := by
   rw [after, ← before]
   exact sound.received
  pending := by
   intro index packet late here
   rw [after, ← before] at late
   obtain ⟨dd, length, memory⟩ := sound.pending late here
   exact ⟨dd, length, memory⟩
  addr := by
   intro ind within _
   refine sound.addr within fun allocated => ?_
   rw [allocated] at before
   cases before
  fresh := by
   intro ind within _
   refine sound.fresh within fun handed => ?_
   rw [handed] at before
   cases before }

section

variable (consistent : Consistent n first state)
include consistent

theorem Consistent.hand (here : state.stage = .measured ind) :
 Consistent n first { state with
  stage := .handed ind
  held := state.rxMbufs ind :: state.held
  received := state.received ++
   [(state.len (state.rxMbufs ind), state.memory (state.rxMbufs ind))] } := by
 have sound := consistent.sound
 have good := consistent.stage
 rw [here] at good
 obtain ⟨⟨same, packet⟩, measured⟩ := good
 have got := getElem?_eq_getElem packet
 have received := sound.received
 have pending := @Sound.pending _ _ _ sound
 rw [here] at received pending
 have filled := pending (le_refl state.advanced) got
 rw [← same] at filled
 refine ⟨{ sound with
  received := ?_
  pending := fun late there => ?_
  addr := fun within _ => sound.addr within (here ▸ Stage.noConfusion)
  fresh := fun within other => ?_ }, same, packet⟩
 · change state.received ++ _ = (state.stored.take (state.advanced + 1)).map whole
   rw [take_succ_eq_append_getElem packet, map_append, received, measured _ got,
    filled.memory]
   rfl
 · obtain ⟨dd, length, memory⟩ := pending (le_of_succ_le late) there
   exact ⟨dd, length, memory⟩
 · rename_i slot
   have apart : slot ≠ ind := fun equal => other (congrArg Stage.handed equal.symm)
   have inside : ind < n := same ▸ slot_lt (zero_lt_of_lt within) _
   intro member
   rcases mem_cons.mp member with equal | before
   · exact sound.distinct within inside apart equal
   · exact sound.fresh within (here ▸ Stage.noConfusion) before

theorem Consistent.alloc (here : state.stage = .handed ind) {m : ℕ}
 (unused : state.Unused n ind m) :
 Consistent n first { state with
  stage := .allocated ind
  rxMbufs := update state.rxMbufs ind m } := by
 have sound := consistent.sound
 obtain ⟨same, packet⟩ := consistent.busy (congrArg Stage.busy here)
 have received := sound.received
 have pending := @Sound.pending _ _ _ sound
 rw [here] at received pending
 have other {slot : ℕ} (apart : slot ≠ ind) :
  update state.rxMbufs ind m slot = state.rxMbufs slot :=
  update_of_ne apart _ _
 refine ⟨{ sound with
  received := received
  pending := fun {index packet'} late there => ?_
  storing := fun {stored} storing => ?_
  addr := fun {slot} within later => ?_
  distinct := fun {left right} leftIn rightIn apart => ?_
  fresh := fun {slot} within _ => ?_ }, same, packet⟩
 · obtain ⟨dd, length, memory⟩ := pending late there
   have before : index < state.stored.length := (List.getElem?_eq_some_iff.mp there).1
   have apart := consistent.later_ne_busy (congrArg Stage.busy here) late before
   refine ⟨dd, length, ?_⟩
   simp_all
 · have apart : state.rdh ≠ ind := consistent.head_ne_busy (congrArg Stage.busy here)
   change state.memory (update state.rxMbufs ind m state.rdh) = _
   rw [other apart]
   exact sound.storing storing
 · have apart : slot ≠ ind := fun equal => later (congrArg Stage.allocated equal.symm)
   change (state.rxRing slot).addr = update state.rxMbufs ind m slot
   rw [other apart]
   exact sound.addr within (here ▸ Stage.noConfusion)
 · change update state.rxMbufs ind m left ≠ update state.rxMbufs ind m right
   by_cases isLeft : left = ind
   · subst isLeft
     rw [update_self, other apart.symm]
     exact (unused.2 right rightIn apart.symm).symm
   · by_cases isRight : right = ind
     · subst isRight
       rw [update_self, other isLeft]
       exact unused.2 left leftIn isLeft
     · rw [other isLeft, other isRight]
       exact sound.distinct leftIn rightIn apart
 · change update state.rxMbufs ind m slot ∉ state.held
   by_cases equal : slot = ind
   · subst equal
     rw [update_self]
     exact unused.1
   · rw [other equal]
     refine sound.fresh within fun handed => equal ?_
     simp_all

theorem Consistent.write (here : state.stage.busy = some ind) (past : state.stage.past = true)
 (unhanded : ∀ slot, state.stage ≠ .handed slot) {desc : RxDesc} {stage : Stage}
 (later : stage.past = true) (addr : desc.addr = state.rxMbufs ind) :
 Sound n first { state.write ind desc with stage := stage } := by
 have sound := consistent.sound
 have other {slot : ℕ} (apart : slot ≠ ind) :
  (state.write ind desc).rxRing slot = state.rxRing slot := update_of_ne apart _ _
 refine { sound with
  received := ?_
  pending := fun {index stored} late there => ?_
  empty := fun {index} late within => ?_
  addr := fun {slot} within _ => ?_
  fresh := fun within _ => sound.fresh within (unhanded _) }
 · rw [later, ← past]
   exact sound.received
 · rw [later] at late
   have before : index < state.stored.length := (List.getElem?_eq_some_iff.mp there).1
   have apart := consistent.later_ne_busy here late before
   obtain ⟨dd, length, memory⟩ := sound.pending (past ▸ late) there
   refine ⟨?_, ?_, memory⟩
   · simp_all
   · simp_all
 · have apart := consistent.ne_busy here late within
   exact (congrArg RxDesc.dd (other apart)).trans (sound.empty late within)
 · by_cases equal : slot = ind
   · subst equal
     exact (congrArg RxDesc.addr (update_self _ _ _)).trans addr
   · refine (congrArg RxDesc.addr (other equal)).trans (sound.addr within fun allocated => ?_)
     rw [allocated] at here
     cases here
     exact equal rfl

theorem Consistent.advance (here : state.stage = .cleared ind) :
 Consistent n first { state with
  stage := .looping
  rdt := ind
  advanced := state.advanced + 1 } := by
 have sound := consistent.sound
 have good := consistent.stage
 rw [here] at good
 obtain ⟨⟨same, packet⟩, cleared⟩ := good
 have upper := sound.upper
 have received := sound.received
 have pending := @Sound.pending _ _ _ sound
 rw [here] at received pending
 refine ⟨{ sound with
  tail := same
  lower := packet
  upper := ?_
  received := received
  pending := fun late there => ?_
  empty := fun {index} late within => ?_
  addr := fun within _ => sound.addr within (here ▸ Stage.noConfusion)
  fresh := fun within _ => sound.fresh within (here ▸ Stage.noConfusion) }, trivial⟩
 · grind
 · obtain ⟨dd, length, memory⟩ := pending late there
   exact ⟨dd, length, memory⟩
 · change index < state.advanced + 1 + n at within
   by_cases last : index = state.advanced + n
   · subst last
     rw [add_right_comm, slot_add, ← same]
     exact cleared
   · exact sound.empty late (by omega)

end

theorem Consistent.run (positive : 0 < n) (consistent : Consistent n first state)
 (taken : state.run n = some next) : Consistent n first next := by
 have sound := consistent.sound
 unfold State.run at taken
 cases stage : state.stage with
 | looping =>
  simp only [stage] at taken
  cases taken
  refine ⟨sound.move state.len (stage ▸ rfl) rfl, ?_⟩
  change (state.rdt + 1) % n = slot n first (state.advanced + 1)
  rw [sound.tail, slot_succ]
 | indexed ind =>
  have good := consistent.stage
  rw [stage] at good
  simp only [stage] at taken
  split at taken
  · rename_i dd
    cases taken
    refine ⟨sound.move state.len (stage ▸ rfl) rfl, good, ?_⟩
    by_contra drained
    have none := sound.empty (Nat.le_of_not_lt drained) (Nat.lt_add_of_pos_right positive)
    rw [← good, dd] at none
    cases none
  · cases taken
    exact ⟨sound.move state.len (stage ▸ rfl) rfl, trivial⟩
 | ready ind =>
  have good := consistent.stage
  rw [stage] at good
  have pending := @Sound.pending _ _ _ sound
  rw [stage] at pending
  simp only [stage] at taken
  cases taken
  refine ⟨sound.move _ (stage ▸ rfl) rfl, good, fun packet here => ?_⟩
  change update state.len (state.rxMbufs ind) _ (state.rxMbufs ind) = _
  rw [update_self, good.1]
  exact (pending (Nat.le_refl state.advanced) here).length
 | measured ind =>
  simp only [stage] at taken
  cases taken
  exact consistent.hand stage
 | allocated ind =>
  simp only [stage] at taken
  cases taken
  exact ⟨consistent.write (stage ▸ rfl) (stage ▸ rfl) (fun _ => stage ▸ Stage.noConfusion) rfl
   rfl, consistent.busy (stage ▸ rfl)⟩
 | addressed ind =>
  have busy := consistent.busy (congrArg Stage.busy stage)
  have inside : ind < n := busy.1 ▸ slot_lt positive _
  simp only [stage] at taken
  cases taken
  refine ⟨consistent.write (stage ▸ rfl) (stage ▸ rfl) (fun _ => stage ▸ Stage.noConfusion) rfl
   (sound.addr inside (stage ▸ Stage.noConfusion)), busy, ?_⟩
  exact congrArg RxDesc.dd (update_self ind _ state.rxRing)
 | cleared ind =>
  simp only [stage] at taken
  cases taken
  exact consistent.advance stage
 | idle | handed =>
  simp only [stage] at taken
  cases taken

/-! ### The steps of the card -/

theorem Consistent.stay (consistent : Consistent n first state)
 (stage : next.stage = state.stage) (advanced : next.advanced = state.advanced)
 (stored : state.stored <+: next.stored) (len : next.len = state.len)
 (mbufs : next.rxMbufs = state.rxMbufs)
 (dd : ∀ {ind}, state.stage.busy = some ind → (next.rxRing ind).dd = (state.rxRing ind).dd) :
 next.stage.Good n first next := by
 have good := consistent.stage
 have longer := stored.length_le
 rw [stage]
 cases here : state.stage with
 | idle | looping => trivial
 | indexed =>
  rw [here] at good
  exact good.trans (congrArg (fun number => slot n first (number + 1)) advanced.symm)
 | ready | handed | allocated | addressed =>
  rw [here] at good
  obtain ⟨same, packet⟩ := good
  rw [← advanced] at same packet
  exact ⟨same, lt_of_lt_of_le packet longer⟩
 | measured ind =>
  rw [here] at good
  obtain ⟨⟨same, packet⟩, measured⟩ := good
  obtain ⟨rest, whole⟩ := stored
  rw [← advanced] at same packet measured
  refine ⟨⟨same, lt_of_lt_of_le packet longer⟩, fun other there => ?_⟩
  grind
 | cleared ind =>
  rw [here] at good
  obtain ⟨⟨same, packet⟩, cleared⟩ := good
  rw [← advanced] at same packet
  exact ⟨⟨same, lt_of_lt_of_le packet longer⟩,
   (dd (congrArg Stage.busy here)).trans cleared⟩

theorem Consistent.taken (consistent : Consistent n first state) :
 state.advanced + state.stage.past.toNat ≤ state.stored.length := by
 cases stage : state.stage with
 | idle | looping | indexed | ready | measured => exact consistent.sound.lower
 | handed | allocated | addressed | cleared =>
  exact (consistent.busy (congrArg Stage.busy stage)).2

theorem Consistent.store (positive : 0 < n) (consistent : Consistent n first state)
 (packet : Packet) (ready : state.rdh ≠ state.rdt ∧ state.storing = none) :
 Consistent n first { state with
  storing := some packet
  memory := update state.memory (state.rxRing state.rdh).addr packet } := by
 have sound := consistent.sound
 have inside : state.rdh < n := sound.head ▸ slot_lt positive _
 have addr : (state.rxRing state.rdh).addr = state.rxMbufs state.rdh :=
  sound.addr inside fun allocated =>
   consistent.head_ne_busy (congrArg Stage.busy allocated) rfl
 have upper := sound.upper
 have room : state.stored.length + 1 < state.advanced + n := by
  refine lt_of_le_of_ne (by omega) fun full => ready.1 ?_
  rw [sound.head, sound.tail, full, slot_add]
 refine ⟨{ sound with
  upper := room
  pending := fun {index stored} late there => ?_
  storing := fun {stored} same => ?_ }, ?_⟩
 · obtain ⟨dd, length, memory⟩ := sound.pending late there
   have before : index < state.stored.length := (List.getElem?_eq_some_iff.mp there).1
   have reached : state.advanced ≤ index := le_trans (le_add_right _ _) late
   have apart := sound.ne_head room reached before
   refine ⟨dd, length, ?_⟩
   change update state.memory _ packet (state.rxMbufs _) = stored
   rw [addr, update_of_ne (sound.distinct (slot_lt positive _) inside apart)]
   exact memory
 · simp_all
 · exact consistent.stay rfl rfl prefix_rfl rfl rfl fun _ => rfl

theorem Consistent.complete (consistent : Consistent n first state) {packet : Packet}
 (storing : state.storing = some packet) :
 Consistent n first { state.write state.rdh
  { state.rxRing state.rdh with length := packet.length, dd := true } with
   storing := none
   rdh := (state.rdh + 1) % n
   stored := state.stored ++ [packet] } := by
 have sound := consistent.sound
 have upper := sound.upper
 rw [storing] at upper
 have other {slot : ℕ} (apart : slot ≠ state.rdh) :
  (state.write state.rdh { state.rxRing state.rdh with
   length := packet.length, dd := true }).rxRing slot = state.rxRing slot :=
  update_of_ne apart _ _
 have here : (state.write state.rdh { state.rxRing state.rdh with
  length := packet.length, dd := true }).rxRing state.rdh =
   { state.rxRing state.rdh with length := packet.length, dd := true } :=
  update_self _ _ _
 have taken := consistent.taken
 have lower := sound.lower
 refine ⟨{ sound with
  head := ?_
  lower := ?_
  upper := ?_
  received := ?_
  pending := fun {index stored} late there => ?_
  empty := fun {index} late within => ?_
  storing := fun none => by cases none
  addr := fun {ind} within stage => ?_ }, ?_⟩
 · rw [sound.head, slot_succ, length_append]
   rfl
 · change state.advanced ≤ (state.stored ++ [packet]).length
   grind
 · rw [length_append]
   exact upper
 · change state.received = ((state.stored ++ [packet]).take
    (state.advanced + state.stage.past.toNat)).map whole
   rw [take_append_of_le_length taken]
   exact sound.received
 · have inside : index < (state.stored ++ [packet]).length :=
    (List.getElem?_eq_some_iff.mp there).1
   rw [length_append] at inside
   by_cases last : index = state.stored.length
   · subst last
     rw [List.getElem?_append_right (Nat.le_refl _), Nat.sub_self] at there
     cases there
     rw [← sound.head]
     exact ⟨congrArg RxDesc.dd here, congrArg RxDesc.length here, sound.storing storing⟩
   · have before : index < state.stored.length :=
      Nat.lt_of_le_of_ne (Nat.lt_succ_iff.mp inside) last
     rw [List.getElem?_append_left before] at there
     obtain ⟨dd, length, memory⟩ := sound.pending late there
     have reached : state.advanced ≤ index := Nat.le_trans (Nat.le_add_right _ _) late
     have apart := sound.ne_head upper reached before
     exact ⟨(congrArg RxDesc.dd (other apart)).trans dd,
      (congrArg RxDesc.length (other apart)).trans length, memory⟩
 · change index < state.advanced + n at within
   rw [length_append] at late
   have apart : slot n first (index + 1) ≠ state.rdh := by
    rw [sound.head]
    exact (slot_ne (Nat.succ_lt_succ late) (by omega)).symm
   exact (congrArg RxDesc.dd (other apart)).trans (sound.empty (Nat.le_of_succ_le late) within)
 · refine Eq.trans ?_ (sound.addr within stage)
   by_cases equal : ind = state.rdh
   · have kept := congrArg RxDesc.addr here
     rw [equal]
     exact kept
   · exact congrArg RxDesc.addr (other equal)
 · refine consistent.stay rfl rfl (prefix_append _ _) rfl rfl fun busy => ?_
   exact congrArg RxDesc.dd (other (consistent.head_ne_busy busy).symm)

theorem Consistent.step (positive : 0 < n) (consistent : Consistent n first state) {event : Event}
 (taken : state.step n event = some next) : Consistent n first next := by
 have sound := consistent.sound
 cases event with
 | recv =>
  simp only [State.step] at taken
  split at taken
  · rename_i stage
    cases taken
    exact ⟨sound.move state.len (stage ▸ rfl) rfl, trivial⟩
  · cases taken
 | run => exact consistent.run positive taken
 | alloc m =>
  simp only [State.step] at taken
  split at taken
  · rename_i stage
    obtain ⟨unused, same⟩ := ite_none_right_eq_some.mp taken
    cases same
    exact consistent.alloc stage unused
  · cases taken
 | free m =>
  obtain ⟨-, same⟩ := ite_none_right_eq_some.mp taken
  cases same
  exact ⟨{ sound with
   pending := fun late here =>
    have filled := sound.pending late here
    ⟨filled.dd, filled.length, filled.memory⟩
   fresh := fun within stage member =>
    sound.fresh within stage (mem_of_mem_erase member) },
   consistent.stay rfl rfl prefix_rfl rfl rfl fun _ => rfl⟩
 | store packet =>
  obtain ⟨ready, same⟩ := ite_none_right_eq_some.mp taken
  cases same
  exact consistent.store positive packet ready
 | complete =>
  obtain ⟨packet, storing, same⟩ := map_eq_some_iff.mp taken
  cases same
  exact consistent.complete storing

/-! ### What follows from the invariant -/

theorem Sound.exists_index (sound : Sound n first state) (offered : state.Offered n ind) :
 ∃ index, state.stored.length ≤ index ∧ index + 1 < state.advanced + n ∧
  ind = slot n first (index + 1) := by
 obtain ⟨offset, rfl, before⟩ := offered
 have upper := sound.upper
 have step (distance : ℕ) :
  (state.rdh + distance) % n = slot n first (state.stored.length + distance + 1) := by
  rw [sound.head]
  unfold slot
  rw [mod_add_mod, add_assoc, add_right_comm state.stored.length]
 refine ⟨state.stored.length + offset, le_add_right _ _, ?_, step offset⟩
 by_contra far
 refine before (state.advanced + n - (state.stored.length + 1)) (by omega) ?_
 have same : state.stored.length + (state.advanced + n - (state.stored.length + 1)) + 1 =
  state.advanced + n := by
  omega
 rw [step, sound.tail, same, slot_add]

theorem Consistent.unfilled (consistent : Consistent n first state)
 (taken : state.run n = some next) (idle : next.stage = .idle) :
 state.stage = .indexed ((state.rdt + 1) % n) ∧
  (state.rxRing ((state.rdt + 1) % n)).dd = false := by
 have good := consistent.stage
 unfold State.run at taken
 cases stage : state.stage with
 | indexed ind =>
  rw [stage] at good
  have same : ind = (state.rdt + 1) % n := by
   rw [consistent.sound.tail, slot_succ]
   exact good
  simp only [stage] at taken
  split at taken
  · cases taken
    cases idle
  · simp_all
 | idle | handed =>
  simp only [stage] at taken
  cases taken
 | _ =>
  grind

theorem Consistent.delivered (positive : 0 < n) (consistent : Consistent n first state) :
 Delivered n state := by
 have sound := consistent.sound
 refine ⟨?_, fun ind offered => ?_, fun next taken idle => ?_⟩
 · rw [sound.received]
   exact ( take_prefix _ _).map whole
 · obtain ⟨index, late, within, rfl⟩ := sound.exists_index offered
   have other {busy : ℕ} (here : state.stage.busy = some busy) :
    slot n first (index + 1) ≠ busy :=
    consistent.ne_busy here late (Nat.lt_of_succ_lt within)
   have inside : slot n first (index + 1) < n := slot_lt positive (index + 1)
   exact ⟨sound.addr inside fun allocated => other (congrArg Stage.busy allocated) rfl,
    sound.fresh inside fun handed => other (congrArg Stage.busy handed) rfl,
    fun other within apart => sound.distinct within inside apart⟩
 · obtain ⟨stage, dd⟩ := consistent.unfilled taken idle
   have received := sound.received
   have pending := @Sound.pending _ _ _ sound
   have next : (state.rdt + 1) % n = slot n first (state.advanced + 1) := by
    rw [sound.tail, slot_succ]
   rw [stage] at received pending
   have all : state.stored.length ≤ state.advanced := by
    by_contra more
    have filled := pending (Nat.le_refl state.advanced)
     (getElem?_eq_getElem (Nat.lt_of_not_le more))
    rw [← next] at filled
    exact Bool.noConfusion (dd.symm.trans filled.dd)
   refine ⟨dd, received.trans ?_⟩
   rw [take_of_length_le (Nat.le_trans all (Nat.le_add_right _ _))]

/-- Every packet comes to the network stack once and in order, and the card always has mbufs of
its own, whatever is interleaved with the driver. -/
theorem e1000_recv_delivers (n first : ℕ) (within : first < n) (mbufs : ℕ → ℕ)
 (distinct : ∀ {ind other}, ind < n → other < n → ind ≠ other → mbufs ind ≠ mbufs other)
 (events : List Event) (final : State)
 (run : Run (ofFunction (State.step n)) (State.start n first mbufs) events final) :
 Delivered n final := by
 have positive : 0 < n := Nat.zero_lt_of_lt within
 have consistent : Consistent n first final :=
  run.invariant (start_consistent within distinct) fun _ _ _ before taken =>
   before.step positive taken
 exact consistent.delivered positive

/-- The events of a packet that is stored and taken, in a ring that gets the mbuf `m`. -/
def packetEvents (packet : Packet) (m : ℕ) : List Event :=
 [.store packet, .complete, .run, .run, .run, .run, .alloc m, .run, .run, .run]

theorem e1000_recv_delivers_two : ∃ final : State, final.received = [(1, [7]), (2, [8, 9])] ∧
 final.stage = .idle ∧ Delivered 2 final := by
 obtain ⟨final, same, received, stage⟩ : ∃ final,
  replay (State.step 2) (State.start 2 0 id)
   ([.recv] ++ packetEvents [7] 2 ++ packetEvents [8, 9] 3 ++ [.run, .run]) = some final ∧
   final.received = [(1, [7]), (2, [8, 9])] ∧ final.stage = .idle := ⟨_, rfl, rfl, rfl⟩
 exact ⟨final, received, stage, e1000_recv_delivers 2 0 Nat.zero_lt_two id
  (fun _ _ apart => apart) _ final (Run.of_replay_all same)⟩

end MyNotes.Xv6.E1000Receive
