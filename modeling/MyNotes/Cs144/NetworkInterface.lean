/-
The first network interface of lab 5: it sends datagrams in Ethernet frames and asks for the
Ethernet address of a next hop with ARP.

A state also keeps its history, newest first: the datagrams submitted, the mappings learned, the
time that passed and the frames transmitted, those with a datagram under their next hop.
-/

import MyNotes.Library.Transition
import Mathlib.Data.List.Basic

namespace MyNotes.Cs144.NetworkInterface

open Library.Transition Function List Option Prod NetworkInterface

variable {Address Ethernet Datagram Payload : Type}

structure EthernetFrame (Ethernet Payload : Type) where
 dst : Ethernet
 src : Ethernet
 type : UInt16
 payload : Payload

structure ArpMessage (Ethernet : Type) where
 opcode : UInt16
 senderEthernetAddress : Ethernet
 senderIpAddress : UInt32
 targetEthernetAddress : Ethernet
 targetIpAddress : UInt32

structure Headers (Address Ethernet Datagram Payload : Type) where
 ipv4Numeric : Address → UInt32
 serializeDatagram : Datagram → Payload
 parseDatagram : Payload → Option Datagram
 serializeArp : ArpMessage Ethernet → Payload
 parseArp : Payload → Option (ArpMessage Ethernet)
 ethernetBroadcast : Ethernet
 noEthernet : Ethernet
 typeIPv4 : UInt16
 typeArp : UInt16
 opcodeRequest : UInt16
 opcodeReply : UInt16

inductive Record (Ethernet Datagram Payload : Type) where
 | submitted (hop : UInt32) (dgram : Datagram)
 | learned (ip : UInt32) (address : Ethernet)
 | elapsed (ms : ℕ)
 | transmitted (frame : EthernetFrame Ethernet Payload) (hop : Option UInt32)

structure State (Address Ethernet Datagram Payload : Type) where
 ethernetAddress : Ethernet
 ipAddress : Address
 ipToEthernet : UInt32 → Option (Ethernet × ℕ)
 /-- `_waiting_arp_respons_ip_addr`, in some order. -/
 waitingArpResponsIpAddr : List (UInt32 × ℕ)
 waitingArpInternetDatagrams : List (Address × Datagram)
 datagramsReceived : List Datagram
 history : List (Record Ethernet Datagram Payload)

inductive Event (Address Ethernet Datagram Payload : Type) where
 | sendDatagram (dgram : Datagram) (nextHop : Address)
 | recvFrame (frame : EthernetFrame Ethernet Payload)
 /-- A tick whose loop over an entry ends within some rounds. -/
 | tick (ms : ℕ) (rounds : ℕ)

def arpEntryDefaultTtl : ℕ := 30 * 1000

def arpResponseDefaultTtl : ℕ := 5 * 1000

def start (ethernetAddress : Ethernet) (ipAddress : Address) :
 State Address Ethernet Datagram Payload where
 ethernetAddress := ethernetAddress
 ipAddress := ipAddress
 ipToEthernet _ := none
 waitingArpResponsIpAddr := []
 waitingArpInternetDatagrams := []
 datagramsReceived := []
 history := []

namespace State

def transmit (self : State Address Ethernet Datagram Payload)
 (frame : EthernetFrame Ethernet Payload) (hop : Option UInt32) :
 State Address Ethernet Datagram Payload :=
 { self with history := .transmitted frame hop :: self.history }

variable (headers : Headers Address Ethernet Datagram Payload)

section

variable (self : State Address Ethernet Datagram Payload)

def arpRequest (ip : UInt32) : EthernetFrame Ethernet Payload where
 src := self.ethernetAddress
 dst := headers.ethernetBroadcast
 type := headers.typeArp
 payload := headers.serializeArp
  { opcode := headers.opcodeRequest
    senderEthernetAddress := self.ethernetAddress
    senderIpAddress := headers.ipv4Numeric self.ipAddress
    targetEthernetAddress := headers.noEthernet
    targetIpAddress := ip }

def arpReply (message : ArpMessage Ethernet) : EthernetFrame Ethernet Payload where
 src := self.ethernetAddress
 dst := message.senderEthernetAddress
 type := headers.typeArp
 payload := headers.serializeArp
  { opcode := headers.opcodeReply
    senderEthernetAddress := self.ethernetAddress
    senderIpAddress := headers.ipv4Numeric self.ipAddress
    targetEthernetAddress := message.senderEthernetAddress
    targetIpAddress := message.senderIpAddress }

def sendDatagram (dgram : Datagram) (nextHop : Address) : State Address Ethernet Datagram Payload :=
 let hop := headers.ipv4Numeric nextHop
 match self.ipToEthernet hop with
 | none =>
  let asked :=
   if self.waitingArpResponsIpAddr.any fun entry => entry.1 = hop then self
   else
    { self.transmit (self.arpRequest headers hop) none with
     waitingArpResponsIpAddr :=
      self.waitingArpResponsIpAddr ++ [(hop, arpResponseDefaultTtl)] }
  { asked with
   waitingArpInternetDatagrams := asked.waitingArpInternetDatagrams ++ [(nextHop, dgram)] }
 | some (address, _) =>
  self.transmit
   { src := self.ethernetAddress
     dst := address
     type := headers.typeIPv4
     payload := headers.serializeDatagram dgram } (some hop)

end

/-- The loop over the waiting datagrams from one place on, for so many rounds. -/
def flush (sender : UInt32) : ℕ → State Address Ethernet Datagram Payload → ℕ →
 Option (State Address Ethernet Datagram Payload)
 | 0, _, _ => none
 | rounds + 1, self, iter =>
  match self.waitingArpInternetDatagrams[iter]? with
  | none => some self
  | some (nextHop, dgram) =>
   if headers.ipv4Numeric nextHop = sender then
    let sent := self.sendDatagram headers dgram nextHop
    flush sender rounds { sent with
     waitingArpInternetDatagrams := sent.waitingArpInternetDatagrams.eraseIdx iter } iter
   else flush sender rounds self (iter + 1)

variable [DecidableEq Ethernet]

section

variable (self : State Address Ethernet Datagram Payload)

def isValidArpRequest
 (message : ArpMessage Ethernet) : Bool :=
 decide (message.opcode = headers.opcodeRequest) &&
  decide (message.targetIpAddress = headers.ipv4Numeric self.ipAddress)

def isValidArpReply
 (message : ArpMessage Ethernet) : Bool :=
 decide (message.opcode = headers.opcodeReply) &&
  decide (message.targetEthernetAddress = self.ethernetAddress)

def recvArp (message : ArpMessage Ethernet) : Option (State Address Ethernet Datagram Payload) :=
 let request := self.isValidArpRequest headers message
 let replied := if request then self.transmit (self.arpReply headers message) none else self
 if request || self.isValidArpReply headers message then
  let learned :=
   { replied with
    ipToEthernet := update replied.ipToEthernet message.senderIpAddress
     (some (message.senderEthernetAddress, arpEntryDefaultTtl))
    history := .learned message.senderIpAddress message.senderEthernetAddress ::
     replied.history }
  -- every round goes on or takes a datagram out
  (flush headers message.senderIpAddress (learned.waitingArpInternetDatagrams.length + 1) learned
   0).map fun flushed =>
    { flushed with
     waitingArpResponsIpAddr := flushed.waitingArpResponsIpAddr.filter fun entry =>
      entry.1 ≠ message.senderIpAddress }
 else some replied

def recvFrame
 (frame : EthernetFrame Ethernet Payload) : Option (State Address Ethernet Datagram Payload) :=
 if frame.dst ≠ self.ethernetAddress ∧ frame.dst ≠ headers.ethernetBroadcast then some self
 else if frame.type = headers.typeIPv4 then
  match headers.parseDatagram frame.payload with
  | none => some self
  | some dgram => some { self with datagramsReceived := self.datagramsReceived ++ [dgram] }
 else if frame.type = headers.typeArp then
  match headers.parseArp frame.payload with
  | none => some self
  | some message => self.recvArp headers message
 else some self

end

/-- The rounds of the second loop of `tick` at one entry, which asks again without going on. -/
def renew (ms : ℕ) (ip : UInt32) : ℕ → State Address Ethernet Datagram Payload → ℕ →
 Option (State Address Ethernet Datagram Payload × ℕ)
 | 0, _, _ => none
 | rounds + 1, self, second =>
  if second ≤ ms then
   renew ms ip rounds (self.transmit (self.arpRequest headers ip) none) arpResponseDefaultTtl
  else some (self, second - ms)

def renewAll (ms rounds : ℕ) : State Address Ethernet Datagram Payload → List (UInt32 × ℕ) →
 Option (State Address Ethernet Datagram Payload × List (UInt32 × ℕ))
 | self, [] => some (self, [])
 | self, (ip, second) :: rest =>
  (renew headers ms ip rounds self second).bind fun (asked, left) =>
   (renewAll ms rounds asked rest).map fun (done, later) => (done, (ip, left) :: later)

section

variable (self : State Address Ethernet Datagram Payload)

def tick (ms rounds : ℕ) : Option (State Address Ethernet Datagram Payload) :=
 let aged :=
  { self with
   ipToEthernet := fun ip => (self.ipToEthernet ip).bind fun entry =>
    if entry.2 ≤ ms then none else some (entry.1, entry.2 - ms)
   history := .elapsed ms :: self.history }
 (renewAll headers ms rounds aged aged.waitingArpResponsIpAddr).map fun (done, waiting) =>
  { done with waitingArpResponsIpAddr := waiting }

def submit (hop : UInt32) (dgram : Datagram) : State Address Ethernet Datagram Payload :=
 { self with history := .submitted hop dgram :: self.history }

def step :
 Event Address Ethernet Datagram Payload → Option (State Address Ethernet Datagram Payload)
 | .sendDatagram dgram nextHop =>
  some ((self.submit (headers.ipv4Numeric nextHop) dgram).sendDatagram headers dgram nextHop)
 | .recvFrame frame => self.recvFrame headers frame
 | .tick ms rounds => self.tick headers ms rounds

end

end State

/-! ### What a history says -/

def Record.time : Record Ethernet Datagram Payload → Option ℕ
 | .elapsed ms => some ms
 | .submitted .. | .learned .. | .transmitted .. => none

def Event.time : Event Address Ethernet Datagram Payload → Option ℕ
 | .tick ms _ => some ms
 | .sendDatagram .. | .recvFrame _ => none

/-- The address learned last for an IP, and the time since. -/
def learnt (ip : UInt32) : List (Record Ethernet Datagram Payload) → Option (Ethernet × ℕ)
 | [] => none
 | .learned other address :: before => if other = ip then some (address, 0) else learnt ip before
 | .elapsed ms :: before => (learnt ip before).map fun entry => (entry.1, entry.2 + ms)
 | .submitted .. :: before => learnt ip before
 | .transmitted .. :: before => learnt ip before

/-- The datagrams submitted for a next hop, oldest first. -/
def submittedTo (hop : UInt32) : List (Record Ethernet Datagram Payload) → List Datagram
 | [] => []
 | .submitted other dgram :: before =>
  if other = hop then submittedTo hop before ++ [dgram] else submittedTo hop before
 | .learned .. :: before => submittedTo hop before
 | .elapsed _ :: before => submittedTo hop before
 | .transmitted .. :: before => submittedTo hop before

/-- The frames transmitted towards a next hop, oldest first. -/
def framesTo (hop : UInt32) :
 List (Record Ethernet Datagram Payload) → List (EthernetFrame Ethernet Payload)
 | [] => []
 | .transmitted frame other :: before =>
  if other = some hop then framesTo hop before ++ [frame] else framesTo hop before
 | .submitted .. :: before => framesTo hop before
 | .learned .. :: before => framesTo hop before
 | .elapsed _ :: before => framesTo hop before

namespace State

variable (headers : Headers Address Ethernet Datagram Payload)

section

variable (state : State Address Ethernet Datagram Payload)

def queuedFor (hop : UInt32) : List Datagram :=
 (state.waitingArpInternetDatagrams.filter fun entry =>
  headers.ipv4Numeric entry.1 = hop).map Prod.snd

/-- What was submitted for a hop has been transmitted in its order, but for what is queued. -/
def Delivered : Prop :=
 ∀ hop, (submittedTo hop state.history).map headers.serializeDatagram =
  (framesTo hop state.history).map EthernetFrame.payload ++
   (state.queuedFor headers hop).map headers.serializeDatagram

/-- A frame with a datagram goes to the address learned last, within its thirty seconds. -/
def Addressed : Prop :=
 ∀ after before frame hop, state.history = after ++ .transmitted frame (some hop) :: before →
  frame.type = headers.typeIPv4 ∧ frame.src = state.ethernetAddress ∧
   ∃ age, learnt hop before = some (frame.dst, age) ∧ age < arpEntryDefaultTtl

/-- The times in the history, newest first. -/
def times : List ℕ :=
 state.history.filterMap Record.time

end

/-- The history has the time of every tick, each once and in their order. -/
def Timed (events : List (Event Address Ethernet Datagram Payload))
 (state : State Address Ethernet Datagram Payload) : Prop :=
 state.times = (events.filterMap Event.time).reverse

/-- A next hop was asked for, and has not answered. -/
def Unanswered (state : State Address Ethernet Datagram Payload) (hop : UInt32) : Prop :=
 state.ipToEthernet hop = none ∧ ∃ second, (hop, second) ∈ state.waitingArpResponsIpAddr

structure Sound (state : State Address Ethernet Datagram Payload) : Prop where
 delivered : state.Delivered headers
 addressed : state.Addressed headers
 waiting : ∀ nextHop dgram, (nextHop, dgram) ∈ state.waitingArpInternetDatagrams →
  state.Unanswered (headers.ipv4Numeric nextHop)

/-! ### What is kept -/

/-- What is left of the thirty seconds of a mapping. -/
def remaining (entry : Option (Ethernet × ℕ)) : Option (Ethernet × ℕ) :=
 entry.bind fun entry =>
  if entry.2 < arpEntryDefaultTtl then some (entry.1, arpEntryDefaultTtl - entry.2) else none

def Known (state : State Address Ethernet Datagram Payload) : Prop :=
 ∀ ip, state.ipToEthernet ip = remaining (learnt ip state.history)

/-- The loop over the waiting datagrams has come to a place. -/
structure Flushing (sender : UInt32) (iter : ℕ)
 (state : State Address Ethernet Datagram Payload) : Prop where
 known : state.Known
 delivered : state.Delivered headers
 addressed : state.Addressed headers
 waiting : ∀ nextHop dgram, (nextHop, dgram) ∈ state.waitingArpInternetDatagrams →
  headers.ipv4Numeric nextHop ≠ sender → state.Unanswered (headers.ipv4Numeric nextHop)
 found : ∃ address ttl, state.ipToEthernet sender = some (address, ttl)
 passed : ∀ entry ∈ state.waitingArpInternetDatagrams.take iter,
  headers.ipv4Numeric entry.1 ≠ sender

variable {headers} {state done : State Address Ethernet Datagram Payload} {hop sender : UInt32}
 {address : Ethernet} {ttl iter rounds ms : ℕ}

theorem Known.learnt (known : state.Known)
 (found : state.ipToEthernet hop = some (address, ttl)) :
 ∃ age, learnt hop state.history = some (address, age) ∧ age < arpEntryDefaultTtl := by
 rw [known hop, remaining, bind_eq_some_iff] at found
 grind

theorem Addressed.cons {record : Record Ethernet Datagram Payload}
 (addressed : state.Addressed headers)
 (now : ∀ frame hop, record = .transmitted frame (some hop) →
  frame.type = headers.typeIPv4 ∧ frame.src = state.ethernetAddress ∧
   ∃ age, learnt hop state.history = some (frame.dst, age) ∧
    age < arpEntryDefaultTtl)
 (history : done.history = record :: state.history)
 (mine : done.ethernetAddress = state.ethernetAddress) : done.Addressed headers := by
 intro after before frame hop split
 rw [history] at split
 rw [mine]
 cases after with
 | nil =>
  simp_all
 | cons first after => exact addressed after before frame hop (cons.inj split).2

variable {dgram : Datagram} {nextHop : Address}

theorem sendDatagram_known
 (found : state.ipToEthernet (headers.ipv4Numeric nextHop) = some (address, ttl)) :
 state.sendDatagram headers dgram nextHop = state.transmit
  { src := state.ethernetAddress
    dst := address
    type := headers.typeIPv4
    payload := headers.serializeDatagram dgram } (some (headers.ipv4Numeric nextHop)) := by
 simp only [sendDatagram, found]

theorem split_at {Element : Type} {entries : List Element} {entry : Element}
 (here : entries[iter]? = some entry) : ∃ before after, entries = before ++ entry :: after ∧
  entries.take iter = before ∧ entries.eraseIdx iter = before ++ after ∧
  entries.take (iter + 1) = before ++ [entry] := by
 obtain ⟨inside, same⟩ := List.getElem?_eq_some_iff.mp here
 refine ⟨entries.take iter, entries.drop (iter + 1), ?_, rfl,
  eraseIdx_eq_take_drop_succ _ _, ?_⟩
 · rw [← same, ← drop_eq_getElem_cons inside, take_append_drop]
 · rw [take_add_one, here]
   rfl

section

variable (flushing : Flushing headers sender iter state)
include flushing

theorem Flushing.send (here : state.waitingArpInternetDatagrams[iter]? = some (nextHop, dgram))
 (mine : headers.ipv4Numeric nextHop = sender) :
 let sent := state.sendDatagram headers dgram nextHop
 Flushing headers sender iter { sent with
  waitingArpInternetDatagrams := sent.waitingArpInternetDatagrams.eraseIdx iter } := by
 obtain ⟨address, ttl, found⟩ := flushing.found
 obtain ⟨age, learned, young⟩ := flushing.known.learnt found
 obtain ⟨early, late, whole, taken, erased, -⟩ := split_at here
 have passed := flushing.passed
 rw [taken] at passed
 subst mine
 rw [sendDatagram_known found]
 refine ⟨flushing.known, fun hop => ?_, ?_, ?_, ⟨address, ttl, found⟩, ?_⟩
 · have before := flushing.delivered hop
   simp only [queuedFor, transmit, erased] at before ⊢
   rw [whole] at before
   simp only [submittedTo, framesTo, some.injEq]
   rw [before]
   by_cases same : headers.ipv4Numeric nextHop = hop
   · subst same
     have none : early.filter (fun entry => headers.ipv4Numeric entry.1 =
      headers.ipv4Numeric nextHop) = [] :=
      filter_eq_nil_iff.mpr fun entry inside => by
       grind
     grind
   · simp_all
 · refine flushing.addressed.cons (fun frame hop same => ?_) rfl rfl
   grind
 · intro other text member
   refine flushing.waiting other text ?_
   simp only [transmit, erased] at member
   rw [whole]
   rcases mem_append.mp member with first | last
   · exact mem_append_left _ first
   · simp_all
 · intro entry member
   simp only [transmit, erased] at member
   have there : early.length = iter := by
    rw [← taken, length_take]
    have bound := (List.getElem?_eq_some_iff.mp here).1
    omega
   grind

theorem Flushing.skip {entry : Address × Datagram}
 (here : state.waitingArpInternetDatagrams[iter]? = some entry)
 (other : headers.ipv4Numeric entry.1 ≠ sender) : Flushing headers sender (iter + 1) state := by
 refine ⟨flushing.known, flushing.delivered, flushing.addressed, flushing.waiting,
  flushing.found, fun entry' member => ?_⟩
 obtain ⟨early, late, -, taken, -, more⟩ := split_at here
 rw [more] at member
 rcases mem_append.mp member with before | last
 · exact flushing.passed entry' (taken ▸ before)
 · rw [mem_singleton.mp last]
   exact other

theorem Flushing.flush (inside : iter ≤ state.waitingArpInternetDatagrams.length)
 (enough : state.waitingArpInternetDatagrams.length < iter + rounds) :
 ∃ done, State.flush headers sender rounds state iter = some done ∧
  Flushing headers sender done.waitingArpInternetDatagrams.length done ∧
  done.waitingArpResponsIpAddr = state.waitingArpResponsIpAddr := by
 induction rounds generalizing state iter with
 | zero => exact absurd enough (Nat.not_lt.mpr inside)
 | succ rounds ih =>
  simp only [State.flush]
  cases here : state.waitingArpInternetDatagrams[iter]? with
  | none =>
   have whole := Nat.le_antisymm inside (List.getElem?_eq_none_iff.mp here)
   exact ⟨state, rfl, whole ▸ flushing, rfl⟩
  | some entry =>
   obtain ⟨nextHop, dgram⟩ := entry
   have below := (List.getElem?_eq_some_iff.mp here).1
   dsimp only
   by_cases mine : headers.ipv4Numeric nextHop = sender
   · rw [if_pos mine]
     have sent := flushing.send here mine
     obtain ⟨address, ttl, found⟩ := flushing.found
     rw [sendDatagram_known (mine.symm ▸ found)] at sent ⊢
     have fewer := length_eraseIdx_of_lt below
     obtain ⟨done, ends, kept, same⟩ := ih sent (by
      change iter ≤ (state.waitingArpInternetDatagrams.eraseIdx iter).length
      omega) (by
      change (state.waitingArpInternetDatagrams.eraseIdx iter).length < iter + rounds
      omega)
     exact ⟨done, ends, kept, same⟩
   · rw [if_neg mine]
     exact ih (flushing.skip here mine) below (by omega)

end

/-! ### The calls -/

structure Consistent (headers : Headers Address Ethernet Datagram Payload)
 (state : State Address Ethernet Datagram Payload) : Prop where
 known : state.Known
 sound : state.Sound headers

theorem start_consistent (ethernetAddress : Ethernet) (ipAddress : Address) :
 (start ethernetAddress ipAddress : State Address Ethernet Datagram Payload).Consistent
  headers := by
 refine ⟨fun _ => rfl, fun _ => rfl, ?_, fun _ _ member => absurd member not_mem_nil⟩
 intro after before frame hop same
 exact absurd same.symm (append_ne_nil_of_right_ne_nil _ (cons_ne_nil _ _))

theorem Consistent.transmit (consistent : state.Consistent headers)
 (frame : EthernetFrame Ethernet Payload) : (state.transmit frame none).Consistent headers :=
 ⟨consistent.known, ⟨consistent.sound.delivered,
  consistent.sound.addressed.cons (fun _ _ same => by cases same) rfl rfl,
  consistent.sound.waiting⟩⟩

theorem queuedFor_snoc {queue : List (Address × Datagram)}
 (queued : done.waitingArpInternetDatagrams = queue ++ [(nextHop, dgram)]) :
 done.queuedFor headers hop =
  (queue.filter fun entry => headers.ipv4Numeric entry.1 = hop).map snd ++
   if headers.ipv4Numeric nextHop = hop then [dgram] else [] := by
 unfold queuedFor
 rw [queued, filter_append, map_append]
 by_cases same : headers.ipv4Numeric nextHop = hop
 · simp_all
 · simp_all

theorem Consistent.queuedFor_nil (consistent : state.Consistent headers)
 (found : state.ipToEthernet hop = some (address, ttl)) : state.queuedFor headers hop = [] := by
 unfold queuedFor
 rw [map_eq_nil_iff, filter_eq_nil_iff]
 rintro ⟨nextHop, dgram⟩ member same
 have missing := (consistent.sound.waiting nextHop dgram member).1
 simp_all

theorem Consistent.queue {records} (consistent : state.Consistent headers)
 (missing : state.ipToEthernet (headers.ipv4Numeric nextHop) = none)
 (history : done.history = records ++ .submitted (headers.ipv4Numeric nextHop) dgram ::
  state.history) (asks : records = [] ∨ ∃ frame, records = [.transmitted frame none])
 (queued : done.waitingArpInternetDatagrams =
  state.waitingArpInternetDatagrams ++ [(nextHop, dgram)])
 (asked : ∃ second, (headers.ipv4Numeric nextHop, second) ∈ done.waitingArpResponsIpAddr)
 (kept : ∀ entry ∈ state.waitingArpResponsIpAddr, entry ∈ done.waitingArpResponsIpAddr)
 (same : (done.ethernetAddress, done.ipToEthernet) =
  (state.ethernetAddress, state.ipToEthernet)) : done.Consistent headers := by
 obtain ⟨known, delivered, addressed, waiting⟩ := consistent
 simp only [Prod.mk.injEq] at same
 obtain ⟨sameAddress, sameMapping⟩ := same
 have submitted : (state.submit (headers.ipv4Numeric nextHop) dgram).Addressed headers :=
  addressed.cons (fun _ _ same => by cases same) rfl rfl
 refine ⟨fun ip => ?_, fun hop => ?_, ?_, fun other text member => ?_⟩
 · rw [sameMapping, known ip, history]
   rcases asks with rfl | ⟨frame, rfl⟩
   all_goals rfl
 · have before := delivered hop
   have reads : submittedTo hop done.history =
    submittedTo hop (.submitted (headers.ipv4Numeric nextHop) dgram :: state.history) ∧
    framesTo hop done.history = framesTo hop state.history := by
    rw [history]
    rcases asks with rfl | ⟨frame, rfl⟩
    all_goals exact ⟨rfl, rfl⟩
   rw [reads.1, reads.2, queuedFor_snoc queued, submittedTo]
   by_cases same : headers.ipv4Numeric nextHop = hop
   · rw [if_pos same, if_pos same, map_append, map_append, before, append_assoc]
     rfl
   · rw [if_neg same, if_neg same, append_nil]
     exact before
 · rcases asks with none | ⟨frame, one⟩
   · rw [none] at history
     exact fun after before frame hop split =>
      sameAddress ▸ submitted after before frame hop (history.symm.trans split)
   · rw [one] at history
     exact submitted.cons (fun _ _ same => by cases same) history sameAddress
 · rw [queued] at member
   unfold Unanswered
   rw [sameMapping]
   rcases mem_append.mp member with old | new
   · obtain ⟨unknown, second, there⟩ := waiting other text old
     exact ⟨unknown, second, kept _ there⟩
   · simp_all

theorem Consistent.sendDatagram (consistent : state.Consistent headers) (dgram : Datagram)
 (nextHop : Address) :
 ((state.submit (headers.ipv4Numeric nextHop) dgram).sendDatagram headers dgram
  nextHop).Consistent headers := by
 cases found : state.ipToEthernet (headers.ipv4Numeric nextHop) with
 | none =>
  have missing : (state.submit (headers.ipv4Numeric nextHop) dgram).ipToEthernet
   (headers.ipv4Numeric nextHop) = none := found
  simp only [State.sendDatagram, missing]
  split
  · rename_i asked
    obtain ⟨⟨ip, second⟩, there, same⟩ := any_eq_true.mp asked
    cases of_decide_eq_true same
    exact consistent.queue found (nil_append _).symm (.inl rfl) rfl ⟨second, there⟩
     (fun _ member => member) rfl
  · exact consistent.queue found rfl (.inr ⟨_, rfl⟩) rfl
     ⟨_, mem_append_right _ mem_cons_self⟩
     (fun _ member => mem_append_left _ member) rfl
 | some entry =>
  obtain ⟨address, ttl⟩ := entry
  obtain ⟨age, learned, young⟩ := consistent.known.learnt found
  have submitted : (state.submit (headers.ipv4Numeric nextHop) dgram).Addressed headers :=
   consistent.sound.addressed.cons (fun _ _ same => by cases same) rfl rfl
  have known : (state.submit (headers.ipv4Numeric nextHop) dgram).ipToEthernet
   (headers.ipv4Numeric nextHop) = some (address, ttl) := found
  rw [sendDatagram_known known]
  refine ⟨consistent.known, fun hop => ?_, ?_, consistent.sound.waiting⟩
  · have before := consistent.sound.delivered hop
    change (submittedTo hop (.submitted _ _ :: state.history)).map _ =
     (framesTo hop (.transmitted _ _ :: state.history)).map _ ++
      (state.queuedFor headers hop).map _
    simp only [submittedTo, framesTo, some.injEq]
    by_cases same : headers.ipv4Numeric nextHop = hop
    · subst same
      rw [consistent.queuedFor_nil found] at before ⊢
      simp_all
    · simp_all
  · refine submitted.cons (fun frame hop same => ?_) rfl rfl
    cases same
    exact ⟨rfl, rfl, age, learned, young⟩

section Receive

variable [DecidableEq Ethernet] {message : ArpMessage Ethernet}
 {frame : EthernetFrame Ethernet Payload}

omit [DecidableEq Ethernet] in
theorem Consistent.learn (consistent : state.Consistent headers) (sender : UInt32)
 (address : Ethernet) : Flushing headers sender 0
  { state with
   ipToEthernet := update state.ipToEthernet sender
    (some (address, arpEntryDefaultTtl))
   history := .learned sender address :: state.history } := by
 refine ⟨fun ip => ?_, consistent.sound.delivered,
  consistent.sound.addressed.cons (fun _ _ same => by cases same) rfl rfl,
  fun nextHop dgram member other => ?_, ⟨address, _, update_self _ _ _⟩,
  fun _ member => absurd member not_mem_nil⟩
 · simp only [learnt]
   by_cases same : ip = sender
   · rw [same, update_self, if_pos rfl]
     rfl
   · rw [update_of_ne same, if_neg (Ne.symm same)]
     exact consistent.known ip
 · obtain ⟨missing, asked⟩ := consistent.sound.waiting nextHop dgram member
   exact ⟨(update_of_ne other _ _).trans missing, asked⟩

omit [DecidableEq Ethernet] in
theorem Flushing.forget
 (flushing : Flushing headers sender state.waitingArpInternetDatagrams.length state) :
 { state with
  waitingArpResponsIpAddr := state.waitingArpResponsIpAddr.filter fun entry =>
   entry.1 ≠ sender }.Consistent headers := by
 have passed := flushing.passed
 rw [take_length] at passed
 refine ⟨flushing.known, flushing.delivered, flushing.addressed, fun nextHop dgram member => ?_⟩
 have other := passed (nextHop, dgram) member
 obtain ⟨missing, second, asked⟩ := flushing.waiting nextHop dgram member other
 exact ⟨missing, second, mem_filter.mpr ⟨asked, decide_eq_true other⟩⟩

theorem Consistent.recvArp (consistent : state.Consistent headers) :
 ∃ done, state.recvArp headers message = some done ∧ done.Consistent headers := by
 unfold State.recvArp
 dsimp only
 have replied : (if state.isValidArpRequest headers message then
  state.transmit (state.arpReply headers message) none else state).Consistent headers := by
  split
  · exact consistent.transmit _
  · exact consistent
 generalize (if state.isValidArpRequest headers message then
  state.transmit (state.arpReply headers message) none else state) = answered at replied ⊢
 split
 · obtain ⟨done, ends, kept, -⟩ :=
    (replied.learn message.senderIpAddress message.senderEthernetAddress).flush
     (Nat.zero_le _) (by rw [Nat.zero_add]; exact Nat.lt_succ_self _)
   rw [ends]
   exact ⟨_, rfl, kept.forget⟩
 · exact ⟨_, rfl, replied⟩

theorem Consistent.recvFrame (consistent : state.Consistent headers) :
 ∃ done, state.recvFrame headers frame = some done ∧ done.Consistent headers := by
 unfold State.recvFrame
 split
 · exact ⟨_, rfl, consistent⟩
 · split
   · split
     · exact ⟨_, rfl, consistent⟩
     · exact ⟨_, rfl, consistent.known, consistent.sound.delivered, consistent.sound.addressed,
        consistent.sound.waiting⟩
   · split
     · split
       · exact ⟨_, rfl, consistent⟩
       · exact consistent.recvArp
     · exact ⟨_, rfl, consistent⟩

end Receive

/-! ### Time -/

theorem remaining_map (entry : Option (Ethernet × ℕ)) (ms : ℕ) :
 remaining (entry.map fun entry => (entry.1, entry.2 + ms)) =
  (remaining entry).bind fun entry =>
   if entry.2 ≤ ms then none else some (entry.1, entry.2 - ms) := by
 cases entry with
 | none => rfl
 | some entry =>
  simp only [remaining, map_some, bind_some]
  by_cases young : entry.2 < arpEntryDefaultTtl
  · simp only [young, if_true, bind_some]
    by_cases stays : entry.2 + ms < arpEntryDefaultTtl
    · rw [if_pos stays, if_neg (by omega), Nat.sub_sub]
    · rw [if_neg stays, if_pos (by omega)]
  · rw [if_neg young, if_neg (by omega)]
    rfl

section

variable (consistent : state.Consistent headers)
include consistent

theorem Consistent.age (ms : ℕ) :
 { state with
  ipToEthernet := fun ip => (state.ipToEthernet ip).bind fun entry =>
   if entry.2 ≤ ms then none else some (entry.1, entry.2 - ms)
  history := .elapsed ms :: state.history }.Consistent headers := by
 refine ⟨fun ip => ?_, consistent.sound.delivered,
  consistent.sound.addressed.cons (fun _ _ same => by cases same) rfl rfl,
  fun nextHop dgram member => ?_⟩
 · simp only [learnt]
   rw [remaining_map, consistent.known ip]
 · obtain ⟨missing, asked⟩ := consistent.sound.waiting nextHop dgram member
   exact ⟨by simp only [missing, bind_none], asked⟩

theorem Consistent.renew {ip : UInt32} {second left : ℕ}
 (ends : State.renew headers ms ip rounds state second = some (done, left)) :
 done.Consistent headers ∧ done.waitingArpResponsIpAddr = state.waitingArpResponsIpAddr := by
 induction rounds generalizing state second with
 | zero => cases ends
 | succ rounds ih =>
  simp only [State.renew] at ends
  split at ends
  · obtain ⟨kept, list⟩ := ih (consistent.transmit _) ends
    exact ⟨kept, list⟩
  · cases ends
    exact ⟨consistent, rfl⟩

theorem Consistent.renewAll {entries later : List (UInt32 × ℕ)}
 (ends : State.renewAll headers ms rounds state entries = some (done, later)) :
 done.Consistent headers ∧ done.waitingArpResponsIpAddr = state.waitingArpResponsIpAddr ∧
  later.map fst = entries.map fst := by
 induction entries generalizing state later with
 | nil =>
  cases ends
  exact ⟨consistent, rfl, rfl⟩
 | cons entry rest ih =>
  obtain ⟨⟨asked, left⟩, one, others⟩ := bind_eq_some_iff.mp ends
  obtain ⟨⟨last, after⟩, more, same⟩ := map_eq_some_iff.mp others
  cases same
  obtain ⟨kept, list⟩ := consistent.renew one
  obtain ⟨done, lists, keys⟩ := ih kept more
  exact ⟨done, lists.trans list, by rw [map_cons, map_cons, keys]⟩

theorem Consistent.tick (taken : state.tick headers ms rounds = some done) :
 done.Consistent headers := by
 obtain ⟨⟨asked, later⟩, ends, same⟩ := map_eq_some_iff.mp taken
 cases same
 obtain ⟨kept, lists, keys⟩ := (consistent.age ms).renewAll ends
 refine ⟨kept.known, kept.sound.delivered, kept.sound.addressed, fun nextHop dgram member => ?_⟩
 obtain ⟨missing, second, there⟩ := kept.sound.waiting nextHop dgram member
 rw [lists] at there
 have key : headers.ipv4Numeric nextHop ∈ later.map fst := by
  rw [keys]
  exact mem_map.mpr ⟨_, there, rfl⟩
 obtain ⟨⟨ip, left⟩, listed, same⟩ := mem_map.mp key
 cases same
 exact ⟨missing, left, listed⟩

end

/-! ### The times of a run -/

theorem sendDatagram_times : (state.sendDatagram headers dgram nextHop).times = state.times := by
 unfold sendDatagram
 dsimp only
 split
 · split
   · rfl
   · rfl
 · rfl

theorem flush_times (ends : flush headers sender rounds state iter = some done) :
 done.times = state.times := by
 induction rounds generalizing state iter with
 | zero => cases ends
 | succ rounds ih =>
  simp only [flush] at ends
  split at ends
  · cases ends
    rfl
  · split at ends
    · exact (ih ends).trans sendDatagram_times
    · exact ih ends

theorem renew_times {ip : UInt32} {second left : ℕ}
 (ends : renew headers ms ip rounds state second = some (done, left)) :
 done.times = state.times := by
 induction rounds generalizing state second with
 | zero => cases ends
 | succ rounds ih =>
  simp only [renew] at ends
  split at ends
  · exact Eq.trans (ih ends) rfl
  · cases ends
    rfl

theorem renewAll_times {entries later : List (UInt32 × ℕ)}
 (ends : renewAll headers ms rounds state entries = some (done, later)) :
 done.times = state.times := by
 induction entries generalizing state later with
 | nil =>
  cases ends
  rfl
 | cons entry rest ih =>
  obtain ⟨⟨asked, left⟩, one, others⟩ := bind_eq_some_iff.mp ends
  obtain ⟨⟨last, after⟩, more, same⟩ := map_eq_some_iff.mp others
  cases same
  exact (ih more).trans (renew_times one)

theorem start_timed (ethernetAddress : Ethernet) (ipAddress : Address) :
 (start ethernetAddress ipAddress : State Address Ethernet Datagram Payload).Timed [] := rfl

variable [DecidableEq Ethernet]

theorem Consistent.step {event : Event Address Ethernet Datagram Payload}
 (consistent : state.Consistent headers) (taken : state.step headers event = some done) :
 done.Consistent headers := by
 cases event with
 | sendDatagram dgram nextHop =>
  cases taken
  exact consistent.sendDatagram dgram nextHop
 | recvFrame frame =>
  obtain ⟨next, ends, kept⟩ := consistent.recvFrame
  cases ends.symm.trans taken
  exact kept
 | tick ms rounds => exact consistent.tick taken

theorem recvArp_times {message : ArpMessage Ethernet}
 (ends : state.recvArp headers message = some done) : done.times = state.times := by
 unfold recvArp at ends
 dsimp only at ends
 have replied : (if state.isValidArpRequest headers message then
  state.transmit (state.arpReply headers message) none else state).times = state.times := by
  split
  · rfl
  · rfl
 split at ends
 · obtain ⟨flushed, loop, rfl⟩ := map_eq_some_iff.mp ends
   exact (flush_times loop).trans replied
 · cases ends
   exact replied

theorem recvFrame_times {frame : EthernetFrame Ethernet Payload}
 (ends : state.recvFrame headers frame = some done) : done.times = state.times := by
 unfold recvFrame at ends
 split at ends
 · cases ends
   rfl
 · split at ends
   · split at ends
     all_goals
      cases ends
      rfl
   · split at ends
     · split at ends
       · cases ends
         rfl
       · exact recvArp_times ends
     · cases ends
       rfl

theorem step_times {event : Event Address Ethernet Datagram Payload}
 (taken : state.step headers event = some done) :
 done.times = event.time.toList ++ state.times := by
 cases event with
 | sendDatagram dgram nextHop =>
  cases taken
  exact sendDatagram_times
 | recvFrame frame => exact recvFrame_times taken
 | tick ms rounds =>
  obtain ⟨⟨asked, later⟩, ends, rfl⟩ := map_eq_some_iff.mp taken
  exact renewAll_times ends

theorem Timed.step {events : List (Event Address Ethernet Datagram Payload)}
 {event : Event Address Ethernet Datagram Payload} (timed : Timed events state)
 (taken : state.step headers event = some done) : Timed (events ++ [event]) done := by
 rw [Timed, step_times taken, timed, filterMap_append, reverse_append]
 cases event with
 | sendDatagram => rfl
 | recvFrame => rfl
 | tick => rfl

theorem timed_of_run {ethernetAddress : Ethernet} {ipAddress : Address}
 {events : List (Event Address Ethernet Datagram Payload)}
 (run : Run (ofFunction (State.step headers)) (start ethernetAddress ipAddress) events done) :
 Timed events done :=
 run.history (start_timed _ _) fun _ _ _ _ _ timed taken => timed.step taken

variable (headers)

/-- In every run, whose ticks all end, the frames of a next hop carry what was submitted for it,
but for what waits for an answer; the history has the times of the ticks, and no frame makes the
interface fail. -/
theorem datagrams_delivered (ethernetAddress : Ethernet) (ipAddress : Address)
 (events : List (Event Address Ethernet Datagram Payload))
 (final : State Address Ethernet Datagram Payload)
 (run : Run (ofFunction (step headers)) (start ethernetAddress ipAddress) events final) :
 final.Sound headers ∧ final.Timed events ∧
  ∀ frame, (final.recvFrame headers frame).isSome = true := by
 have consistent : final.Consistent headers :=
  run.invariant (start_consistent ethernetAddress ipAddress) fun _ _ _ before taken =>
   before.step taken
 refine ⟨consistent.sound, timed_of_run run, fun frame => ?_⟩
 obtain ⟨done, ends, -⟩ := consistent.recvFrame
 exact isSome_iff_exists.mpr ⟨done, ends⟩

/-- Payloads that are kept as what was serialized. -/
def plainHeaders : Headers UInt32 ℕ ℕ (ℕ ⊕ ArpMessage ℕ) where
 ipv4Numeric := id
 serializeDatagram := .inl
 parseDatagram payload := payload.elim some fun _ => none
 serializeArp := .inr
 parseArp payload := payload.elim (fun _ => none) some
 ethernetBroadcast := 0xFFFFFFFFFFFF
 noEthernet := 0
 typeIPv4 := 0x0800
 typeArp := 0x0806
 opcodeRequest := 1
 opcodeReply := 2

theorem datagrams_delivered_three : ∃ final : State UInt32 ℕ ℕ (ℕ ⊕ ArpMessage ℕ),
 (framesTo 9 final.history).map EthernetFrame.payload = [.inl 70, .inl 71, .inl 72] ∧
  final.Sound plainHeaders := by
 obtain ⟨final, same, frames⟩ : ∃ final : State UInt32 ℕ ℕ (ℕ ⊕ ArpMessage ℕ),
  replay (step plainHeaders) (start 5 1)
   [.sendDatagram 70 9, .tick 4000 1, .sendDatagram 71 9, .tick 1500 2,
    .recvFrame ⟨5, 42, 0x0806, .inr ⟨2, 42, 9, 5, 1⟩⟩, .sendDatagram 72 9] = some final ∧
   (framesTo 9 final.history).map EthernetFrame.payload = [.inl 70, .inl 71, .inl 72] :=
  ⟨_, rfl, rfl⟩
 exact ⟨final, frames, (datagrams_delivered plainHeaders 5 1 _ final
  (Run.of_replay_all same)).1⟩

end State

end MyNotes.Cs144.NetworkInterface
