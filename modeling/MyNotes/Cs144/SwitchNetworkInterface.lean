/-
The second network interface of lab 5, with three maps and a switch.

The headers, the frames and the history of a state are those of the first interface.  An accepted
ARP frame is recorded as learned whether or not its mapping is kept.
-/

import MyNotes.Cs144.NetworkInterface
import Mathlib.Algebra.Group.Nat.Defs

namespace MyNotes.Cs144.SwitchNetworkInterface

open Library.Transition Function List Option
open NetworkInterface (ArpMessage EthernetFrame Headers Record framesTo learnt submittedTo)

variable {Address Ethernet Datagram Payload : Type}

structure AddressMapping (Ethernet : Type) where
 etherAddr : Ethernet
 timer : UInt64

def AddressMapping.tick (self : AddressMapping Ethernet) (msTimePassed : UInt64) :
 AddressMapping Ethernet :=
 { self with timer := self.timer + msTimePassed }

structure State (Address Ethernet Datagram Payload : Type) where
 ethernetAddress : Ethernet
 ipAddress : Address
 mappingTable : UInt32 → Option (AddressMapping Ethernet)
 arpRecorder : UInt32 → Option UInt64
 dgramsWaitingAddr : UInt32 → Option Datagram
 datagramsReceived : List Datagram
 history : List (Record Ethernet Datagram Payload)

inductive Event (Address Ethernet Datagram Payload : Type) where
 | sendDatagram (dgram : Datagram) (nextHop : Address)
 | recvFrame (frame : EthernetFrame Ethernet Payload)
 | tick (ms : UInt64)

/-- `emplace` of a map, which keeps the entry that is there. -/
def emplace {Value : Type} (table : UInt32 → Option Value) (key : UInt32) (value : Value) :
 UInt32 → Option Value :=
 match table key with
 | none => update table key (some value)
 | some _ => table

def msMappingsTtl : UInt64 := 30000

def msResendArp : UInt64 := 5000

/-- The lambda of `tick`, for a map whose values can be advanced and have a timer. -/
def flushTimer {Value : Type} (advance : Value → UInt64 → Value) (timer : Value → UInt64)
 (msSinceLastTick : UInt64) (datasheet : UInt32 → Option Value) (deadline : UInt64) :
 UInt32 → Option Value :=
 fun key => (datasheet key).bind fun value =>
  if timer (advance value msSinceLastTick) > deadline then none
  else some (advance value msSinceLastTick)

def start (ethernetAddress : Ethernet) (ipAddress : Address) :
 State Address Ethernet Datagram Payload where
 ethernetAddress := ethernetAddress
 ipAddress := ipAddress
 mappingTable _ := none
 arpRecorder _ := none
 dgramsWaitingAddr _ := none
 datagramsReceived := []
 history := []

namespace State

variable (headers : Headers Address Ethernet Datagram Payload)

section

variable (self : State Address Ethernet Datagram Payload)

def transmit
 (frame : EthernetFrame Ethernet Payload) (hop : Option UInt32) :
 State Address Ethernet Datagram Payload :=
 { self with history := .transmitted frame hop :: self.history }

/-- `make_arp` for this interface, in a frame. -/
def arpFrame (dst : Ethernet) (opcode : UInt16)
 (targetEthernetAddress : Ethernet) (targetIpAddress : UInt32) :
 EthernetFrame Ethernet Payload where
 src := self.ethernetAddress
 dst := dst
 type := headers.typeArp
 payload := headers.serializeArp
  { opcode := opcode
    senderEthernetAddress := self.ethernetAddress
    senderIpAddress := headers.ipv4Numeric self.ipAddress
    targetEthernetAddress := targetEthernetAddress
    targetIpAddress := targetIpAddress }

def ipv4Frame (dst : Ethernet) (dgram : Datagram) : EthernetFrame Ethernet Payload where
 src := self.ethernetAddress
 dst := dst
 type := headers.typeIPv4
 payload := headers.serializeDatagram dgram

def sendDatagram (dgram : Datagram) (nextHop : Address) : State Address Ethernet Datagram Payload :=
 let nextHopIp := headers.ipv4Numeric nextHop
 match self.mappingTable nextHopIp with
 | none =>
  let queued :=
   { self with dgramsWaitingAddr := emplace self.dgramsWaitingAddr nextHopIp dgram }
  match queued.arpRecorder nextHopIp with
  | none =>
   { queued.transmit (queued.arpFrame headers headers.ethernetBroadcast headers.opcodeRequest
    headers.noEthernet nextHopIp) none with
    arpRecorder := emplace queued.arpRecorder nextHopIp 0 }
  | some _ => queued
 | some mapping => self.transmit (self.ipv4Frame headers mapping.etherAddr dgram) (some nextHopIp)

def learn (message : ArpMessage Ethernet) : State Address Ethernet Datagram Payload :=
 { self with
  mappingTable := emplace self.mappingTable message.senderIpAddress
   ⟨message.senderEthernetAddress, 0⟩
  history := .learned message.senderIpAddress message.senderEthernetAddress :: self.history }

def recvArp (message : ArpMessage Ethernet) : State Address Ethernet Datagram Payload :=
 let learned := self.learn message
 if message.opcode = headers.opcodeRequest then
  if message.targetIpAddress = headers.ipv4Numeric self.ipAddress then
   learned.transmit (learned.arpFrame headers message.senderEthernetAddress headers.opcodeReply
    message.senderEthernetAddress message.senderIpAddress) none
  else learned
 else if message.opcode = headers.opcodeReply then
  -- the range of one key in a map without duplicates
  match learned.dgramsWaitingAddr message.senderIpAddress with
  | none => learned
  | some dgram =>
   { learned.transmit (learned.ipv4Frame headers message.senderEthernetAddress dgram)
    (some message.senderIpAddress) with
    dgramsWaitingAddr := update learned.dgramsWaitingAddr message.senderIpAddress
     none }
 else learned

end

def tick (self : State Address Ethernet Datagram Payload) (msSinceLastTick : UInt64) :
 State Address Ethernet Datagram Payload :=
 { self with
  mappingTable := flushTimer AddressMapping.tick AddressMapping.timer msSinceLastTick
   self.mappingTable msMappingsTtl
  arpRecorder := flushTimer (· + ·) id msSinceLastTick self.arpRecorder msResendArp
  history := .elapsed msSinceLastTick.toNat :: self.history }

def submit (self : State Address Ethernet Datagram Payload) (hop : UInt32) (dgram : Datagram) :
 State Address Ethernet Datagram Payload :=
 { self with history := .submitted hop dgram :: self.history }

variable [DecidableEq Ethernet]

def recvFrame (self : State Address Ethernet Datagram Payload)
 (frame : EthernetFrame Ethernet Payload) : State Address Ethernet Datagram Payload :=
 if frame.dst ≠ self.ethernetAddress ∧ frame.dst ≠ headers.ethernetBroadcast then self
 else if frame.type = headers.typeIPv4 then
  match headers.parseDatagram frame.payload with
  | none => self
  | some datagram => { self with datagramsReceived := self.datagramsReceived ++ [datagram] }
 else if frame.type = headers.typeArp then
  match headers.parseArp frame.payload with
  | none => self
  | some message => self.recvArp headers message
 else self

def step (self : State Address Ethernet Datagram Payload) :
 Event Address Ethernet Datagram Payload → Option (State Address Ethernet Datagram Payload)
 | .sendDatagram dgram nextHop =>
  some ((self.submit (headers.ipv4Numeric nextHop) dgram).sendDatagram headers dgram nextHop)
 | .recvFrame frame => some (self.recvFrame headers frame)
 | .tick ms => some (self.tick ms)

/-! ### What the interface is for -/

omit [DecidableEq Ethernet] in
/-- The payloads for a hop that are out or waiting. -/
def payloadsFor (state : State Address Ethernet Datagram Payload) (hop : UInt32) : List Payload :=
 (framesTo hop state.history).map EthernetFrame.payload ++
  (state.dgramsWaitingAddr hop).toList.map headers.serializeDatagram

/-- The address in the latest ARP frame from an IP, for thirty seconds. -/
def currentAddress (state : State Address Ethernet Datagram Payload) (ip : UInt32) :
 Option Ethernet :=
 (learnt ip state.history).bind fun (address, age) => if age ≤ 30000 then some address else none

structure Correct (state : State Address Ethernet Datagram Payload) : Prop where
 delivered : ∀ hop, ((submittedTo hop state.history).map headers.serializeDatagram).Perm
  (state.payloadsFor headers hop)
 settled : ∀ ip mapping, state.mappingTable ip = some mapping → state.dgramsWaitingAddr ip = none
 current : ∀ ip, (state.mappingTable ip).map AddressMapping.etherAddr = state.currentAddress ip

def accepted (self : State Address Ethernet Datagram Payload)
 (frame : EthernetFrame Ethernet Payload) : Option (ArpMessage Ethernet) :=
 if frame.dst ≠ self.ethernetAddress ∧ frame.dst ≠ headers.ethernetBroadcast then none
 else if frame.type = headers.typeIPv4 then none
 else if frame.type = headers.typeArp then headers.parseArp frame.payload
 else none

/-- No datagram follows one that waits.  An ARP frame has the address that is known, if any, and is
a reply where a datagram waits for its sender.  A tick adds up without wrapping, and does not end a
mapping within thirty seconds of its sender's latest frame. -/
def Allowed (state : State Address Ethernet Datagram Payload) :
 Event Address Ethernet Datagram Payload → Prop
 | .sendDatagram _ nextHop =>
  state.mappingTable (headers.ipv4Numeric nextHop) = none →
   state.dgramsWaitingAddr (headers.ipv4Numeric nextHop) = none
 | .recvFrame frame => ∀ message, state.accepted headers frame = some message →
  (∀ mapping, state.mappingTable message.senderIpAddress = some mapping →
   mapping.etherAddr = message.senderEthernetAddress) ∧
  (message.opcode ≠ headers.opcodeReply →
   state.dgramsWaitingAddr message.senderIpAddress = none)
 | .tick ms => ∀ ip mapping address age, state.mappingTable ip = some mapping →
  learnt ip state.history = some (address, age) →
   mapping.timer.toNat + ms.toNat < 2 ^ 64 ∧
    (mapping.timer.toNat + ms.toNat ≤ 30000 ∨ 30000 < age + ms.toNat)

/-! ### Datagrams -/

variable {headers} {state next : State Address Ethernet Datagram Payload}

variable {Value : Type} {table : UInt32 → Option Value} {key : UInt32}

theorem emplace_absent (value : Value) (absent : table key = none) :
 emplace table key value = update table key (some value) := by
 rw [emplace, absent]

theorem emplace_present {old : Value} (value : Value) (present : table key = some old) :
 emplace table key value = table := by
 rw [emplace, present]

theorem emplace_of_ne {other : UInt32} (value : Value) (differs : other ≠ key) :
 emplace table key value other = table other := by
 cases found : table key with
 | none => rw [emplace_absent value found, update_of_ne differs]
 | some old => rw [emplace_present value found]

/-- The state after a datagram for a hop that is not known. -/
structure Queues (hop : UInt32) (dgram : Datagram)
 (state next : State Address Ethernet Datagram Payload) : Prop where
 mappings : next.mappingTable = state.mappingTable
 waiting : next.dgramsWaitingAddr = emplace state.dgramsWaitingAddr hop dgram
 submitted : ∀ ip, submittedTo ip next.history =
  submittedTo ip (.submitted hop dgram :: state.history)
 frames : ∀ ip, framesTo ip next.history = framesTo ip state.history
 learned : ∀ ip, learnt ip next.history = learnt ip state.history

omit [DecidableEq Ethernet] in
theorem sendDatagram_unknown {nextHop : Address} (dgram : Datagram)
 (unknown : state.mappingTable (headers.ipv4Numeric nextHop) = none) :
 Queues (headers.ipv4Numeric nextHop) dgram state
  ((state.submit (headers.ipv4Numeric nextHop) dgram).sendDatagram headers dgram nextHop) := by
 have missing : (state.submit (headers.ipv4Numeric nextHop) dgram).mappingTable
  (headers.ipv4Numeric nextHop) = none := unknown
 simp only [sendDatagram, missing]
 split
 · exact ⟨rfl, rfl, fun _ => rfl, fun _ => rfl, fun _ => rfl⟩
 · exact ⟨rfl, rfl, fun _ => rfl, fun _ => rfl, fun _ => rfl⟩

/-- The timer of a mapping is at least the time since the latest frame, and still short. -/
structure Sound (headers : Headers Address Ethernet Datagram Payload)
 (state : State Address Ethernet Datagram Payload) : Prop where
 correct : state.Correct headers
 timers : ∀ ip mapping address age, state.mappingTable ip = some mapping →
  learnt ip state.history = some (address, age) →
   age ≤ mapping.timer.toNat ∧ mapping.timer.toNat ≤ 30000

omit [DecidableEq Ethernet] in
theorem start_sound (ethernetAddress : Ethernet) (ipAddress : Address) :
 Sound headers (start ethernetAddress ipAddress : State Address Ethernet Datagram Payload) :=
 ⟨⟨fun _ => List.Perm.refl _, nofun, fun _ => rfl⟩, nofun⟩

variable {mapping : AddressMapping Ethernet}

omit [DecidableEq Ethernet] in
theorem Sound.sendDatagram_known (sound : Sound headers state) {nextHop : Address}
 (dgram : Datagram) (known : state.mappingTable (headers.ipv4Numeric nextHop) = some mapping) :
 Sound headers
  ((state.submit (headers.ipv4Numeric nextHop) dgram).sendDatagram headers dgram nextHop) := by
 obtain ⟨⟨delivered, settled, current⟩, timers⟩ := sound
 have found : (state.submit (headers.ipv4Numeric nextHop) dgram).mappingTable
  (headers.ipv4Numeric nextHop) = some mapping := known
 have sent : (state.submit (headers.ipv4Numeric nextHop) dgram).sendDatagram headers dgram
  nextHop = (state.submit (headers.ipv4Numeric nextHop) dgram).transmit
   (state.ipv4Frame headers mapping.etherAddr dgram) (some (headers.ipv4Numeric nextHop)) := by
  simp only [sendDatagram, found]
  rfl
 rw [sent]
 refine ⟨⟨fun hop => ?_, settled, current⟩, timers⟩
 have before := delivered hop
 rw [payloadsFor] at before
 change ((submittedTo hop (.submitted _ dgram :: state.history)).map _).Perm
  ((framesTo hop (.transmitted _ _ :: state.history)).map _ ++ _)
 simp only [submittedTo, framesTo, Option.some.injEq]
 by_cases same : headers.ipv4Numeric nextHop = hop
 · subst same
   rw [settled _ _ known] at before
   rw [if_pos rfl, if_pos rfl]
   change List.Perm _ (_ ++ (state.dgramsWaitingAddr _).toList.map _)
   rw [settled _ _ known, map_append, map_append]
   rw [toList_none, map_nil, append_nil] at before ⊢
   exact before.append_right [headers.serializeDatagram dgram]
 · rw [if_neg same, if_neg same]
   exact before

omit [DecidableEq Ethernet] in
theorem Sound.queue (sound : Sound headers state) {hop : UInt32} {dgram : Datagram}
 (unknown : state.mappingTable hop = none) (queues : Queues hop dgram state next) :
 (state.dgramsWaitingAddr hop = none → Sound headers next) ∧
  (next.Correct headers → state.dgramsWaitingAddr hop = none) := by
 obtain ⟨⟨delivered, settled, current⟩, timers⟩ := sound
 obtain ⟨mappings, waiting, submitted, frames, learned⟩ := queues
 constructor
 · intro free
   rw [emplace_absent dgram free] at waiting
   refine ⟨⟨fun ip => ?_, fun ip mapping known => ?_, fun ip => ?_⟩,
    fun ip mapping address age known => ?_⟩
   · have before := delivered ip
     rw [payloadsFor] at before ⊢
     rw [submitted, frames, submittedTo, waiting]
     by_cases same : hop = ip
     · subst same
       rw [free] at before
       rw [if_pos rfl, update_self, map_append]
       simpa using before.append_right [headers.serializeDatagram dgram]
     · grind
   · rw [mappings] at known
     have other : ip ≠ hop := by
      rintro rfl
      cases unknown.symm.trans known
     simp_all
   · rw [mappings, currentAddress, learned]
     exact current ip
   · grind
 · intro correct
   by_contra some
   obtain ⟨first, waits⟩ := ne_none_iff_exists'.mp some
   rw [emplace_present dgram waits] at waiting
   have before := (delivered hop).length_eq
   have after := (correct.delivered hop).length_eq
   rw [payloadsFor] at before after
   rw [submitted, frames, submittedTo, if_pos rfl, waiting] at after
   simp_all

/-! ### Frames -/

structure Hears (headers : Headers Address Ethernet Datagram Payload)
 (message : ArpMessage Ethernet) (state next : State Address Ethernet Datagram Payload) :
 Prop where
 mappings : next.mappingTable = emplace state.mappingTable message.senderIpAddress
  ⟨message.senderEthernetAddress, 0⟩
 payloads : ∀ hop, next.payloadsFor headers hop = state.payloadsFor headers hop
 others : ∀ ip ≠ message.senderIpAddress, next.dgramsWaitingAddr ip = state.dgramsWaitingAddr ip
 sender : next.dgramsWaitingAddr message.senderIpAddress =
  if message.opcode = headers.opcodeReply then none
  else state.dgramsWaitingAddr message.senderIpAddress
 submitted : ∀ ip, submittedTo ip next.history = submittedTo ip state.history
 learned : ∀ ip, learnt ip next.history = learnt ip
  (.learned message.senderIpAddress message.senderEthernetAddress :: state.history)

omit [DecidableEq Ethernet] in
theorem recvArp_hears (differ : headers.opcodeReply ≠ headers.opcodeRequest)
 (message : ArpMessage Ethernet) :
 Hears headers message state (state.recvArp headers message) := by
 unfold recvArp
 dsimp only
 split
 · rename_i request
   have noReply : message.opcode ≠ headers.opcodeReply := fun reply =>
    differ (reply.symm.trans request)
   split
   all_goals
    exact ⟨rfl, fun _ => rfl, fun _ _ => rfl, (if_neg noReply).symm, fun _ => rfl, fun _ => rfl⟩
 · split
   · rename_i reply
     split
     · rename_i none
       exact ⟨rfl, fun _ => rfl, fun _ _ => rfl, none.trans (if_pos reply).symm, fun _ => rfl,
        fun _ => rfl⟩
     · rename_i dgram waits
       refine ⟨rfl, fun hop => ?_, fun ip other => update_of_ne other _ _,
        (update_self _ _ _).trans (if_pos reply).symm, fun _ => rfl, fun _ => rfl⟩
       have here : state.dgramsWaitingAddr message.senderIpAddress = some dgram := waits
       rw [payloadsFor, payloadsFor]
       change (framesTo hop (.transmitted _ (some message.senderIpAddress) ::
        state.history)).map _ ++
         (update state.dgramsWaitingAddr _ none hop).toList.map _ = _
       simp only [framesTo, Option.some.injEq]
       by_cases same : message.senderIpAddress = hop
       · subst same
         rw [if_pos rfl, update_self, here, map_append]
         rw [toList_none, map_nil, append_nil]
         rfl
       · rw [if_neg same, update_of_ne (Ne.symm same)]
   · rename_i noReply
     exact ⟨rfl, fun _ => rfl, fun _ _ => rfl, (if_neg noReply).symm, fun _ => rfl, fun _ => rfl⟩

omit [DecidableEq Ethernet] in
theorem Sound.hear (sound : Sound headers state) {message : ArpMessage Ethernet}
 (hears : Hears headers message state next) :
 let agrees := (∀ mapping, state.mappingTable message.senderIpAddress = some mapping →
  mapping.etherAddr = message.senderEthernetAddress) ∧
  (message.opcode ≠ headers.opcodeReply →
   state.dgramsWaitingAddr message.senderIpAddress = none)
 (agrees → Sound headers next) ∧ (next.Correct headers → agrees) := by
 obtain ⟨⟨delivered, settled, current⟩, timers⟩ := sound
 obtain ⟨mappings, payloads, others, sender, submitted, learned⟩ := hears
 have now : next.currentAddress message.senderIpAddress = some message.senderEthernetAddress := by
  rw [currentAddress, learned, learnt, if_pos rfl]
  rfl
 constructor
 · rintro ⟨same, free⟩
   refine ⟨⟨fun hop => ?_, fun ip mapping known => ?_, fun ip => ?_⟩,
    fun ip mapping address age known since => ?_⟩
   · simp_all
   · by_cases mine : ip = message.senderIpAddress
     · rw [mine, sender]
       split
       · rfl
       · rename_i noReply
         exact free noReply
     · rw [mappings, emplace_of_ne _ mine] at known
       simp_all
   · by_cases mine : ip = message.senderIpAddress
     · rw [mine, now, mappings]
       cases old : state.mappingTable message.senderIpAddress with
       | none => rw [emplace_absent _ old, update_self, map_some]
       | some mapping => rw [emplace_present _ old, old, map_some, same mapping old]
     · rw [mappings, emplace_of_ne _ mine, currentAddress, learned, learnt, if_neg (Ne.symm mine)]
       exact current ip
   · rw [mappings] at known
     rw [learned, learnt] at since
     by_cases mine : ip = message.senderIpAddress
     · subst mine
       rw [if_pos rfl] at since
       cases since
       refine ⟨Nat.zero_le _, ?_⟩
       cases old : state.mappingTable message.senderIpAddress with
       | none =>
        rw [emplace_absent _ old, update_self] at known
        cases known
        exact Nat.zero_le _
       | some first =>
        rw [emplace_present _ old, old] at known
        cases known
        have alive := current message.senderIpAddress
        rw [old, map_some] at alive
        obtain ⟨⟨address, age⟩, before, -⟩ := bind_eq_some_iff.mp alive.symm
        exact (timers _ _ _ _ old before).2
     · rw [emplace_of_ne _ mine] at known
       grind
 · intro correct
   refine ⟨fun mapping old => ?_, fun noReply => ?_⟩
   · have address := correct.current message.senderIpAddress
     rw [now, mappings, emplace_present _ old, old] at address
     exact Option.some.inj address
   · rw [if_neg noReply] at sender
     rw [← sender]
     cases old : state.mappingTable message.senderIpAddress with
     | none =>
      refine correct.settled _ ⟨message.senderEthernetAddress, 0⟩ ?_
      rw [mappings, emplace_absent _ old, update_self]
     | some mapping =>
      simp_all

/-! ### Time -/

variable {ms : UInt64} {age : ℕ}

theorem expires_iff {timer : UInt64} (late : age ≤ timer.toNat) (short : timer.toNat ≤ 30000) :
 (timer + ms > msMappingsTtl ↔ 30000 < age + ms.toNat) ↔
  timer.toNat + ms.toNat < 2 ^ 64 ∧
   (timer.toNat + ms.toNat ≤ 30000 ∨ 30000 < age + ms.toNat) := by
 have bound := ms.toNat_lt
 have deadline : msMappingsTtl.toNat = 30000 := rfl
 rw [gt_iff_lt, UInt64.lt_iff_toNat_lt, UInt64.toNat_add, deadline]
 omega

omit [DecidableEq Ethernet] in
theorem tick_mappingTable (ms : UInt64) (ip : UInt32) :
 (state.tick ms).mappingTable ip = (state.mappingTable ip).bind fun mapping =>
  if mapping.timer + ms > msMappingsTtl then none else some (mapping.tick ms) := rfl

variable {ip : UInt32}

section

omit [DecidableEq Ethernet]

theorem tick_currentAddress {address : Ethernet}
 (learned : learnt ip state.history = some (address, age)) :
 (state.tick ms).currentAddress ip = if 30000 < age + ms.toNat then none else some address := by
 change ((learnt ip state.history).map fun entry => (entry.1, entry.2 + ms.toNat)).bind _ = _
 grind

theorem Sound.learned (sound : Sound headers state) (known : state.mappingTable ip = some mapping) :
 ∃ age, learnt ip state.history = some (mapping.etherAddr, age) ∧ age ≤ mapping.timer.toNat ∧
  mapping.timer.toNat ≤ 30000 := by
 have alive := sound.correct.current ip
 rw [known, map_some] at alive
 obtain ⟨⟨address, age⟩, since, young⟩ := bind_eq_some_iff.mp alive.symm
 obtain ⟨-, same⟩ := ite_none_right_eq_some.mp young
 cases same
 exact ⟨age, since, sound.timers _ _ _ _ known since⟩

theorem Sound.tick (sound : Sound headers state)
 (apart : ∀ ip mapping address age, state.mappingTable ip = some mapping →
  learnt ip state.history = some (address, age) →
   (mapping.timer + ms > msMappingsTtl ↔ 30000 < age + ms.toNat)) :
 Sound headers (state.tick ms) := by
 refine ⟨⟨sound.correct.delivered, fun ip mapping known => ?_, fun ip => ?_⟩,
  fun ip mapping address age known since => ?_⟩
 · obtain ⟨old, there, -⟩ := bind_eq_some_iff.mp known
   exact sound.correct.settled ip old there
 · rw [tick_mappingTable]
   cases there : state.mappingTable ip with
   | none =>
    have gone := sound.correct.current ip
    rw [there, currentAddress] at gone
    cases before : learnt ip state.history with
    | none =>
     change none = ((learnt ip state.history).map _).bind _
     rw [before]
     rfl
    | some entry =>
     obtain ⟨address, age⟩ := entry
     rw [before, bind_some] at gone
     dsimp only at gone
     have old : ¬ age ≤ 30000 := fun young => by
      rw [if_pos young] at gone
      cases gone
     rw [tick_currentAddress before, if_pos (by omega)]
     rfl
   | some mapping =>
    obtain ⟨age, before, -⟩ := sound.learned there
    rw [tick_currentAddress before, bind_some,
     if_congr (apart ip mapping _ age there before) rfl rfl]
    split
    · rfl
    · rfl
 · obtain ⟨old, there, kept⟩ := bind_eq_some_iff.mp known
   obtain ⟨fresh, same⟩ := ite_none_left_eq_some.mp kept
   cases same
   obtain ⟨first, before, earlier⟩ := map_eq_some_iff.mp since
   cases earlier
   obtain ⟨late, short⟩ := sound.timers ip old first.1 first.2 there before
   obtain ⟨fits, -⟩ := (expires_iff late short).mp (apart ip old _ _ there before)
   have deadline : msMappingsTtl.toNat = 30000 := rfl
   have added : (old.timer + ms).toNat = old.timer.toNat + ms.toNat := by
    rw [UInt64.toNat_add, Nat.mod_eq_of_lt fits]
   have within : ¬ msMappingsTtl < old.timer + ms := fresh
   rw [UInt64.lt_iff_toNat_lt, added, deadline] at within
   change first.2 + ms.toNat ≤ (old.timer + ms).toNat ∧ (old.timer + ms).toNat ≤ 30000
   rw [added]
   omega

theorem Correct.tick (correct : (state.tick ms).Correct headers) {address : Ethernet}
 (known : state.mappingTable ip = some mapping)
 (since : learnt ip state.history = some (address, age)) :
 mapping.timer + ms > msMappingsTtl ↔ 30000 < age + ms.toNat := by
 have now := correct.current ip
 rw [tick_currentAddress since, tick_mappingTable, known, bind_some] at now
 by_cases ends : mapping.timer + ms > msMappingsTtl
 · rw [if_pos ends] at now
   refine iff_of_true ends ?_
   by_contra young
   rw [if_neg young] at now
   cases now
 · rw [if_neg ends] at now
   refine iff_of_false ends fun old => ?_
   rw [if_pos old] at now
   cases now

end

/-! ### Runs -/

variable (headers state) in
theorem recvFrame_accepted (frame : EthernetFrame Ethernet Payload) :
 (∃ received, state.accepted headers frame = none ∧ state.recvFrame headers frame =
  { state with datagramsReceived := received }) ∨
 ∃ message, state.accepted headers frame = some message ∧
  state.recvFrame headers frame = state.recvArp headers message := by
 unfold recvFrame accepted
 split
 · exact .inl ⟨_, rfl, rfl⟩
 · split
   · split
     · exact .inl ⟨_, rfl, rfl⟩
     · exact .inl ⟨_, rfl, rfl⟩
   · split
     · split
       · rename_i unparsed
         exact .inl ⟨_, unparsed, rfl⟩
       · rename_i message parsed
         exact .inr ⟨message, parsed, rfl⟩
     · exact .inl ⟨_, rfl, rfl⟩

theorem Sound.step (sound : Sound headers state)
 (differ : headers.opcodeReply ≠ headers.opcodeRequest)
 {event : Event Address Ethernet Datagram Payload}
 (taken : state.step headers event = some next) :
 (state.Allowed headers event → Sound headers next) ∧
  (next.Correct headers → state.Allowed headers event) := by
 cases event with
 | sendDatagram dgram nextHop =>
  cases taken
  cases known : state.mappingTable (headers.ipv4Numeric nextHop) with
  | some mapping =>
   refine ⟨fun _ => sound.sendDatagram_known dgram known, fun _ unknown => ?_⟩
   cases known.symm.trans unknown
  | none =>
   obtain ⟨kept, alone⟩ := sound.queue known (sendDatagram_unknown dgram known)
   exact ⟨fun allowed => kept (allowed known), fun correct _ => alone correct⟩
 | recvFrame frame =>
  cases taken
  obtain ⟨received, foreign, same⟩ | ⟨message, brought, same⟩ :=
   recvFrame_accepted headers state frame
  · refine ⟨fun _ => ?_, fun _ message brought => ?_⟩
    · rw [same]
      exact ⟨⟨sound.correct.delivered, sound.correct.settled, sound.correct.current⟩,
       sound.timers⟩
    · cases foreign.symm.trans brought
  · rw [same]
    obtain ⟨kept, agrees⟩ := sound.hear (recvArp_hears differ message)
    refine ⟨fun allowed => kept (allowed message brought), fun correct other brought' => ?_⟩
    cases brought.symm.trans brought'
    exact agrees correct
 | tick ms =>
  cases taken
  constructor
  · intro allowed
    refine sound.tick fun ip mapping address age known since => ?_
    obtain ⟨late, short⟩ := sound.timers ip mapping address age known since
    exact (expires_iff late short).mpr (allowed ip mapping address age known since)
  · intro correct ip mapping address age known since
    obtain ⟨late, short⟩ := sound.timers ip mapping address age known since
    exact (expires_iff late short).mp (correct.tick known since)

variable (headers) in
/-- A run is right in all its states if and only if each of its steps is of the kind that the maps
can serve. -/
theorem interface_correct_iff (differ : headers.opcodeReply ≠ headers.opcodeRequest)
 (ethernetAddress : Ethernet) (ipAddress : Address)
 (events : List (Event Address Ethernet Datagram Payload))
 (final : State Address Ethernet Datagram Payload)
 (run : Run (ofFunction (step headers)) (start ethernetAddress ipAddress) events final) :
 (∀ before state, before <+: events →
  Run (ofFunction (step headers)) (start ethernetAddress ipAddress) before state →
   state.Correct headers) ↔
  Run (Guarded (Allowed headers) (ofFunction (step headers))) (start ethernetAddress ipAddress)
   events final :=
 Run.always_iff_guarded (start_sound _ _) (fun _ sound => sound.correct)
  (fun _ _ _ sound taken => sound.step differ taken) run

theorem interface_correct_iff_answered :
 ∃ (events : List (Event UInt32 ℕ ℕ (ℕ ⊕ ArpMessage ℕ)))
  (final : State UInt32 ℕ ℕ (ℕ ⊕ ArpMessage ℕ)),
  final.payloadsFor NetworkInterface.State.plainHeaders 9 = [.inl 70, .inl 71] ∧
   ((∀ before state, before <+: events →
    Run (ofFunction (step NetworkInterface.State.plainHeaders)) (start 5 1) before state →
     state.Correct NetworkInterface.State.plainHeaders) ↔
    Run (Guarded (Allowed NetworkInterface.State.plainHeaders)
     (ofFunction (step NetworkInterface.State.plainHeaders))) (start 5 1) events final) := by
 obtain ⟨final, same, payloads⟩ : ∃ final : State UInt32 ℕ ℕ (ℕ ⊕ ArpMessage ℕ),
  replay (step NetworkInterface.State.plainHeaders) (start 5 1)
   [.sendDatagram 70 9, .tick 6000, .recvFrame ⟨5, 42, 0x0806, .inr ⟨2, 42, 9, 5, 1⟩⟩,
    .sendDatagram 71 9] = some final ∧
   final.payloadsFor NetworkInterface.State.plainHeaders 9 = [.inl 70, .inl 71] :=
  ⟨_, rfl, rfl⟩
 exact ⟨_, final, payloads, interface_correct_iff NetworkInterface.State.plainHeaders (by decide)
  5 1 _ final (Run.of_replay_all same)⟩

/-- The second of two datagrams for a hop that has not answered is dropped. -/
theorem second_dgram_dropped :
 ¬ ∀ (events : List (Event UInt32 ℕ ℕ (ℕ ⊕ ArpMessage ℕ))) final,
  Run (ofFunction (step NetworkInterface.State.plainHeaders)) (start 5 1) events final →
   final.Correct NetworkInterface.State.plainHeaders := by
 intro all
 obtain ⟨final, same, submitted, payloads⟩ : ∃ final : State UInt32 ℕ ℕ (ℕ ⊕ ArpMessage ℕ),
  replay (step NetworkInterface.State.plainHeaders) (start 5 1)
   [.sendDatagram 70 9, .sendDatagram 71 9] = some final ∧
   submittedTo 9 final.history = [70, 71] ∧
   final.payloadsFor NetworkInterface.State.plainHeaders 9 = [.inl 70] := ⟨_, rfl, rfl, rfl⟩
 have length := ((all _ final (Run.of_replay_all same)).delivered 9).length_eq
 rw [submitted, payloads] at length
 exact absurd length (by decide)

end State

end MyNotes.Cs144.SwitchNetworkInterface
