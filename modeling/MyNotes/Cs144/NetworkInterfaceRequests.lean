/-
The ARP requests of the first network interface, and the time between them.

A tick is cut into the rounds of its second loop, since one that never ends transmits all the same.
Beside the interface stands what an observer of the wire and of the clock notes, newest first.
-/

import MyNotes.Cs144.NetworkInterfaceTick

namespace MyNotes.Cs144.NetworkInterface

open Library.Transition Function List Prod State

variable {Address Ethernet Datagram Payload : Type}

/-- What the code relies on in the headers of the lab. -/
structure Headers.Lawful (headers : Headers Address Ethernet Datagram Payload) : Prop where
 parse_serialize : ∀ message, headers.parseArp (headers.serializeArp message) = some message
 type_ne : headers.typeIPv4 ≠ headers.typeArp
 opcode_ne : headers.opcodeReply ≠ headers.opcodeRequest

inductive Note where
 | asked (ip : UInt32)
 | answered (ip : UInt32)
 | elapsed (ms : ℕ)
 deriving DecidableEq

def requestFor (headers : Headers Address Ethernet Datagram Payload)
 (frame : EthernetFrame Ethernet Payload) : Option UInt32 :=
 if frame.type = headers.typeArp then
  (headers.parseArp frame.payload).bind fun message =>
   if message.opcode = headers.opcodeRequest then some message.targetIpAddress else none
 else none

def noted (headers : Headers Address Ethernet Datagram Payload) :
 Record Ethernet Datagram Payload → Option Note
 | .transmitted frame _ => (requestFor headers frame).map .asked
 | .elapsed ms => some (.elapsed ms)
 | .submitted .. => none
 | .learned .. => none

/-- The interface under observation.  `pass` is the second loop of a tick, its time and place, and
`reset` the length of the tick that started a countdown last, with 0 for `send_datagram`. -/
structure Watch (Address Ethernet Datagram Payload : Type) where
 interface : State Address Ethernet Datagram Payload
 pass : Option (ℕ × ℕ)
 log : List Note
 reset : UInt32 → ℕ

inductive Moment (Address Ethernet Datagram Payload : Type) where
 | sendDatagram (dgram : Datagram) (nextHop : Address)
 | recvFrame (frame : EthernetFrame Ethernet Payload)
 | tick (ms : ℕ)
 /-- One round of the second loop of a tick. -/
 | round

namespace Watch

def start (ethernetAddress : Ethernet) (ipAddress : Address) :
 Watch Address Ethernet Datagram Payload :=
 ⟨NetworkInterface.start ethernetAddress ipAddress, none, [], fun _ => 0⟩

variable (headers : Headers Address Ethernet Datagram Payload)

/-- The interface has gone on, and what is new in its history is noted. -/
def follow (self : Watch Address Ethernet Datagram Payload)
 (next : State Address Ethernet Datagram Payload) : Watch Address Ethernet Datagram Payload :=
 { self with
  interface := next
  log := (next.history.take (next.history.length - self.interface.history.length)).filterMap
   (noted headers) ++ self.log }

variable [DecidableEq Ethernet]

def replyFrom (self : State Address Ethernet Datagram Payload)
 (frame : EthernetFrame Ethernet Payload) : Option UInt32 :=
 if frame.dst ≠ self.ethernetAddress ∧ frame.dst ≠ headers.ethernetBroadcast then none
 else if frame.type = headers.typeIPv4 then none
 else if frame.type = headers.typeArp then
  (headers.parseArp frame.payload).bind fun message =>
   if self.isValidArpReply headers message then some message.senderIpAddress else none
 else none

def step (self : Watch Address Ethernet Datagram Payload) :
 Moment Address Ethernet Datagram Payload → Option (Watch Address Ethernet Datagram Payload)
 | .sendDatagram dgram nextHop =>
  if self.pass = none then
   let hop := headers.ipv4Numeric nextHop
   let next := self.follow headers
    ((self.interface.submit hop dgram).sendDatagram headers dgram nextHop)
   some { next with
    reset := if self.interface.waitingArpResponsIpAddr.any fun entry => entry.1 = hop then
     self.reset
     else update self.reset hop 0 }
  else none
 | .recvFrame frame =>
  if self.pass = none then
   (self.interface.recvFrame headers frame).map fun done =>
    let next := self.follow headers done
    { next with
     log := ((replyFrom headers self.interface frame).map Note.answered).toList ++
      next.log }
  else none
 | .tick ms =>
  if self.pass = none then
   some { self.follow headers (self.interface.aged ms) with pass := some (ms, 0) }
  else none
 | .round =>
  self.pass.bind fun (ms, it) =>
   match self.interface.waitingArpResponsIpAddr[it]? with
   | none => some { self with pass := none }
   | some entry =>
    let (done, it) := self.interface.renewRound headers ms it entry
    some { self.follow headers done with
     pass := some (ms, it)
     reset := if entry.2 ≤ ms then update self.reset entry.1 ms
      else self.reset }

end Watch

/-! ### What the notes say -/

def passed : List Note → ℕ
 | [] => 0
 | .elapsed ms :: before => passed before + ms
 | .asked _ :: before => passed before
 | .answered _ :: before => passed before

/-- Two requests for an IP with no reply from it between them are five seconds apart. -/
def RateLimited (log : List Note) : Prop :=
 ∀ after ip between before, log = after ++ .asked ip :: between ++ .asked ip :: before →
  .answered ip ∉ between → 5000 ≤ passed between

/-- The time since the last request for an IP, unless it has answered. -/
def sinceAsked (ip : UInt32) : List Note → Option ℕ
 | [] => none
 | .asked other :: before => if other = ip then some 0 else sinceAsked ip before
 | .answered other :: before => if other = ip then none else sinceAsked ip before
 | .elapsed ms :: before => (sinceAsked ip before).map (· + ms)

namespace Watch

/-- A countdown that has run out has done so by the length of the tick that started it last. -/
def OnTime (state : Watch Address Ethernet Datagram Payload) :
 Moment Address Ethernet Datagram Payload → Prop
 | .round => ∀ ms it entry, state.pass = some (ms, it) →
  state.interface.waitingArpResponsIpAddr[it]? = some entry → entry.2 ≤ ms →
   entry.2 + state.reset entry.1 ≤ ms
 | _ => True

end Watch

variable {log before between : List Note} {ip : UInt32} {age ms : ℕ}

theorem sinceAsked_some (since : sinceAsked ip log = some age) :
 ∃ between before, log = between ++ .asked ip :: before ∧ .answered ip ∉ between ∧
  passed between = age := by
 induction log generalizing age with
 | nil => cases since
 | cons note rest ih =>
  cases note with
  | asked other =>
   rw [sinceAsked] at since
   split at since
   · rename_i same
     subst same
     cases since
     exact ⟨[], rest, rfl, not_mem_nil, rfl⟩
   · obtain ⟨between, before, split, none, same⟩ := ih since
     refine ⟨.asked other :: between, before, congrArg _ split, ?_, same⟩
     simp_all
  | answered other =>
   rw [sinceAsked] at since
   split at since
   · cases since
   · rename_i differs
     obtain ⟨between, before, split, none, same⟩ := ih since
     refine ⟨.answered other :: between, before, congrArg _ split, ?_, same⟩
     grind
  | elapsed ms =>
   obtain ⟨early, found, same⟩ := Option.map_eq_some_iff.mp since
   obtain ⟨between, before, split, none, time⟩ := ih found
   refine ⟨.elapsed ms :: between, before, congrArg _ split, ?_, ?_⟩
   · simp_all
   · rw [passed, time, same]

theorem sinceAsked_le (before : List Note) (none : .answered ip ∉ between) :
 ∃ age, sinceAsked ip (between ++ .asked ip :: before) = some age ∧ age ≤ passed between := by
 induction between with
 | nil => exact ⟨0, if_pos rfl, Nat.le_refl 0⟩
 | cons note rest ih =>
  obtain ⟨differs, later⟩ := ne_and_not_mem_of_not_mem_cons none
  obtain ⟨age, since, less⟩ := ih later
  cases note with
  | asked other =>
   by_cases same : other = ip
   · exact ⟨0, if_pos same, Nat.zero_le _⟩
   · exact ⟨age, (if_neg same).trans since, less⟩
  | answered other =>
   refine ⟨age, (if_neg fun same => differs ?_).trans since, less⟩
   rw [same]
  | elapsed ms =>
   refine ⟨age + ms, ?_, Nat.add_le_add_right less ms⟩
   rw [cons_append, sinceAsked, since]
   rfl

theorem rateLimited_asked_iff :
 RateLimited (.asked ip :: log) ↔
  RateLimited log ∧ ∀ age, sinceAsked ip log = some age → 5000 ≤ age := by
 constructor
 · intro limited
   refine ⟨fun after other between before split => limited (.asked ip :: after) other between
    before (congrArg _ split), fun age since => ?_⟩
   obtain ⟨between, before, split, none, same⟩ := sinceAsked_some since
   exact same ▸ limited [] ip between before (congrArg _ split) none
 · rintro ⟨limited, latest⟩ after other between before split none
   cases after with
   | nil =>
    obtain ⟨same, rest⟩ := cons.inj split
    cases same
    obtain ⟨age, since, less⟩ := sinceAsked_le before none
    grind
   | cons first after => exact limited after other between before (cons.inj split).2 none

theorem rateLimited_cons_iff {note : Note} (other : ∀ ip, note ≠ .asked ip) :
 RateLimited (note :: log) ↔ RateLimited log := by
 constructor
 · intro limited after ip between before split
   exact limited (note :: after) ip between before (congrArg _ split)
 · intro limited after ip between before split none
   cases after with
   | nil => exact absurd (cons.inj split).1 (other ip)
   | cons first after => exact limited after ip between before (cons.inj split).2 none

/-! ### What the calls add to the notes -/

variable {headers : Headers Address Ethernet Datagram Payload}
 {state next : State Address Ethernet Datagram Payload}

theorem requestFor_arpRequest (lawful : headers.Lawful) (ip : UInt32) :
 requestFor headers (state.arpRequest headers ip) = some ip := by
 refine (if_pos rfl).trans ?_
 change (headers.parseArp (headers.serializeArp _)).bind _ = _
 rw [lawful.parse_serialize, Option.bind_some, if_pos rfl]

theorem requestFor_arpReply (lawful : headers.Lawful) (message : ArpMessage Ethernet) :
 requestFor headers (state.arpReply headers message) = none := by
 refine (if_pos rfl).trans ?_
 change (headers.parseArp (headers.serializeArp _)).bind _ = _
 rw [lawful.parse_serialize, Option.bind_some, if_neg lawful.opcode_ne]

theorem requestFor_ipv4 (lawful : headers.Lawful) {frame : EthernetFrame Ethernet Payload}
 (type : frame.type = headers.typeIPv4) : requestFor headers frame = none := by
 rw [requestFor, if_neg fun same => lawful.type_ne (type.symm.trans same)]

def Adds (headers : Headers Address Ethernet Datagram Payload)
 (old new : State Address Ethernet Datagram Payload) (notes : List Note) : Prop :=
 ∃ records, new.history = records ++ old.history ∧ records.filterMap (noted headers) = notes

theorem Adds.nothing (same : next.history = state.history) : Adds headers state next [] :=
 ⟨[], same, rfl⟩

variable {notes : List Note}

theorem Adds.quiet {last : State Address Ethernet Datagram Payload}
 {record : Record Ethernet Datagram Payload} (adds : Adds headers state next notes)
 (history : last.history = record :: next.history) (unnoted : noted headers record = none) :
 Adds headers state last notes := by
 obtain ⟨records, whole, same⟩ := adds
 refine ⟨record :: records, by rw [history, whole]; rfl, ?_⟩
 rw [filterMap_cons_none unnoted, same]

theorem Adds.note {last : State Address Ethernet Datagram Payload}
 {record : Record Ethernet Datagram Payload} {note : Note} (adds : Adds headers state next notes)
 (history : last.history = record :: next.history) (isNoted : noted headers record = some note) :
 Adds headers state last (note :: notes) := by
 obtain ⟨records, whole, same⟩ := adds
 refine ⟨record :: records, by rw [history, whole]; rfl, ?_⟩
 rw [filterMap_cons_some isNoted, same]

theorem Watch.follow_log {watch : Watch Address Ethernet Datagram Payload}
 (adds : Adds headers watch.interface next notes) :
 (watch.follow headers next).log = notes ++ watch.log := by
 obtain ⟨records, whole, same⟩ := adds
 have length : next.history.length - watch.interface.history.length = records.length := by
  rw [whole, length_append, Nat.add_sub_cancel]
 rw [Watch.follow, length, whole, take_left, same]

theorem sendDatagram_adds (lawful : headers.Lawful)
 (state : State Address Ethernet Datagram Payload) (dgram : Datagram) (nextHop : Address) :
 let sent :=
  (state.submit (headers.ipv4Numeric nextHop) dgram).sendDatagram headers dgram nextHop
 sent.ipToEthernet = state.ipToEthernet ∧
  (Adds headers state sent [] ∧ sent.waitingArpResponsIpAddr = state.waitingArpResponsIpAddr ∨
   Adds headers state sent [.asked (headers.ipv4Numeric nextHop)] ∧
    state.ipToEthernet (headers.ipv4Numeric nextHop) = none ∧
    (state.waitingArpResponsIpAddr.any fun entry =>
     entry.1 = headers.ipv4Numeric nextHop) = false ∧
    sent.waitingArpResponsIpAddr = state.waitingArpResponsIpAddr ++
     [(headers.ipv4Numeric nextHop, arpResponseDefaultTtl)]) := by
 have submitted : Adds headers state (state.submit (headers.ipv4Numeric nextHop) dgram) [] :=
  Adds.quiet (.nothing rfl) rfl rfl
 cases found : state.ipToEthernet (headers.ipv4Numeric nextHop) with
 | some entry =>
  obtain ⟨address, ttl⟩ := entry
  have known : (state.submit (headers.ipv4Numeric nextHop) dgram).ipToEthernet
   (headers.ipv4Numeric nextHop) = some (address, ttl) := found
  rw [sendDatagram_known known]
  refine ⟨rfl, .inl ⟨submitted.quiet rfl ?_, rfl⟩⟩
  exact congrArg (Option.map _) (requestFor_ipv4 lawful rfl)
 | none =>
  have missing : (state.submit (headers.ipv4Numeric nextHop) dgram).ipToEthernet
   (headers.ipv4Numeric nextHop) = none := found
  simp only [sendDatagram, missing]
  split
  · exact ⟨rfl, .inl ⟨submitted, rfl⟩⟩
  · rename_i fresh
    refine ⟨rfl, .inr ⟨submitted.note rfl ?_, trivial, Bool.eq_false_iff.mpr fresh, rfl⟩⟩
    exact congrArg (Option.map _) (requestFor_arpRequest lawful _)

theorem flush_adds (lawful : headers.Lawful) {sender : UInt32} {address : Ethernet} {ttl : ℕ}
 {rounds iter : ℕ} (found : state.ipToEthernet sender = some (address, ttl))
 (ends : flush headers sender rounds state iter = some next)
 {old : State Address Ethernet Datagram Payload} (adds : Adds headers old state notes) :
 Adds headers old next notes ∧ next.ipToEthernet = state.ipToEthernet ∧
  next.waitingArpResponsIpAddr = state.waitingArpResponsIpAddr := by
 induction rounds generalizing state iter with
 | zero => cases ends
 | succ rounds ih =>
  rw [flush] at ends
  split at ends
  · cases ends
    exact ⟨adds, rfl, rfl⟩
  · rename_i nextHop dgram here
    split at ends
    · rename_i mine
      rw [sendDatagram_known (mine ▸ found)] at ends
      have later := ih ?_ ends (adds.quiet rfl ?_)
      · exact later
      · exact found
      · exact congrArg (Option.map _) (requestFor_ipv4 lawful rfl)
    · exact ih found ends adds

section Receive

variable [DecidableEq Ethernet]

/-- A frame is of no importance for the requests, or the address of its sender is learned from it
and the request for it is over. -/
inductive Hears (headers : Headers Address Ethernet Datagram Payload)
 (state next : State Address Ethernet Datagram Payload) : Option UInt32 → Prop
 | nothing (mappings : next.ipToEthernet = state.ipToEthernet)
  (requests : next.waitingArpResponsIpAddr = state.waitingArpResponsIpAddr) :
  Hears headers state next none
 | learns {reply : Option UInt32} (sender : UInt32) (address : Ethernet)
  (answers : ∀ ip ∈ reply, ip = sender)
  (mappings : next.ipToEthernet =
   update state.ipToEthernet sender (some (address, arpEntryDefaultTtl)))
  (requests : next.waitingArpResponsIpAddr =
   state.waitingArpResponsIpAddr.filter fun entry => entry.1 ≠ sender) :
  Hears headers state next reply

theorem recvArp_adds (lawful : headers.Lawful) {message : ArpMessage Ethernet}
 (ends : state.recvArp headers message = some next) :
 Adds headers state next [] ∧ Hears headers state next
  (if state.isValidArpReply headers message then some message.senderIpAddress else none) := by
 unfold recvArp at ends
 dsimp only at ends
 have replied : ∃ answered, (if state.isValidArpRequest headers message then
  state.transmit (state.arpReply headers message) none else state) = answered ∧
  Adds headers state answered [] ∧ answered.ipToEthernet = state.ipToEthernet ∧
  answered.waitingArpResponsIpAddr = state.waitingArpResponsIpAddr := by
  refine ⟨_, rfl, ?_⟩
  split
  · refine ⟨Adds.quiet (.nothing rfl) rfl ?_, rfl, rfl⟩
    exact congrArg (Option.map _) (requestFor_arpReply lawful message)
  · exact ⟨.nothing rfl, rfl, rfl⟩
 obtain ⟨answered, same, adds, mappings, requests⟩ := replied
 rw [same] at ends
 split at ends
 · obtain ⟨flushed, loop, result⟩ := Option.map_eq_some_iff.mp ends
   cases result
   obtain ⟨more, learned, kept⟩ := flush_adds lawful (update_self _ _ _) loop
    (adds.quiet rfl rfl)
   refine ⟨more, Hears.learns message.senderIpAddress message.senderEthernetAddress
    (fun ip member => ?_) (learned.trans ?_) ?_⟩
   · split at member
     · exact (Option.some.inj member).symm
     · cases member
   · rw [← mappings]
   · simp_all
 · rename_i neither
   cases ends
   rw [Bool.or_eq_true, not_or] at neither
   rw [if_neg neither.2]
   exact ⟨adds, .nothing mappings requests⟩

theorem recvFrame_adds (lawful : headers.Lawful) {frame : EthernetFrame Ethernet Payload}
 (ends : state.recvFrame headers frame = some next) :
 Adds headers state next [] ∧
  Hears headers state next (Watch.replyFrom headers state frame) := by
 unfold recvFrame at ends
 unfold Watch.replyFrom
 split at ends
 · rename_i foreign
   cases ends
   rw [if_pos foreign]
   exact ⟨.nothing rfl, .nothing rfl rfl⟩
 · rename_i own
   rw [if_neg own]
   split at ends
   · rename_i isIPv4
     rw [if_pos isIPv4]
     split at ends
     all_goals
      cases ends
      exact ⟨.nothing rfl, .nothing rfl rfl⟩
   · rename_i notIPv4
     rw [if_neg notIPv4]
     split at ends
     · rename_i isArp
       rw [if_pos isArp]
       split at ends
       · rename_i unparsed
         cases ends
         rw [unparsed]
         exact ⟨.nothing rfl, .nothing rfl rfl⟩
       · rename_i message parsed
         rw [parsed]
         exact recvArp_adds lawful ends
     · rename_i other
       cases ends
       rw [if_neg other]
       exact ⟨.nothing rfl, .nothing rfl rfl⟩

end Receive

/-! ### The countdowns -/

/-- A countdown, the time since its request and the tick that started it last make five seconds, but
for a tick that has still to come to it. -/
def Counts (log : List Note) (reset : UInt32 → ℕ) (ahead : ℕ) (entry : UInt32 × ℕ) : Prop :=
 ∃ age, sinceAsked entry.1 log = some age ∧
  entry.2 + age + reset entry.1 = arpResponseDefaultTtl + ahead

/-- The part of a tick that has still to come to the request at an index. -/
def ahead (pass : Option (ℕ × ℕ)) (index : ℕ) : ℕ :=
 pass.elim 0 fun (ms, it) => if index < it then 0 else ms

def timeLeft (state : State Address Ethernet Datagram Payload) (ip : UInt32) : ℕ :=
 (state.ipToEthernet ip).elim 0 Prod.snd

structure Watch.Paced (watch : Watch Address Ethernet Datagram Payload) : Prop where
 keys : (watch.interface.waitingArpResponsIpAddr.map Prod.fst).Nodup
 counts : ∀ index entry, watch.interface.waitingArpResponsIpAddr[index]? = some entry →
  Counts watch.log watch.reset (ahead watch.pass index) entry
 settled : ∀ ip, ip ∉ watch.interface.waitingArpResponsIpAddr.map Prod.fst →
  ∀ age, sinceAsked ip watch.log = some age →
   arpEntryDefaultTtl ≤ timeLeft watch.interface ip + age

namespace Watch

variable {watch after : Watch Address Ethernet Datagram Payload}

theorem start_paced (ethernetAddress : Ethernet) (ipAddress : Address) :
 (start ethernetAddress ipAddress : Watch Address Ethernet Datagram Payload).Paced :=
 ⟨nodup_nil, nofun, fun _ _ _ => nofun⟩

variable (paced : watch.Paced)
include paced

theorem Paced.idle (idle : watch.pass = none) {entry : UInt32 × ℕ}
 (member : entry ∈ watch.interface.waitingArpResponsIpAddr) :
 Counts watch.log watch.reset 0 entry := by
 obtain ⟨index, here⟩ := mem_iff_getElem?.mp member
 have counts := paced.counts index entry here
 rw [idle] at counts
 exact counts

theorem Paced.fewer (idle : watch.pass = none) (idle' : after.pass = none)
 (requests : after.interface.waitingArpResponsIpAddr.Sublist
  watch.interface.waitingArpResponsIpAddr)
 (same : ∀ entry ∈ after.interface.waitingArpResponsIpAddr,
  sinceAsked entry.1 after.log = sinceAsked entry.1 watch.log ∧
   after.reset entry.1 = watch.reset entry.1)
 (settled : ∀ ip, ip ∉ after.interface.waitingArpResponsIpAddr.map fst →
  ∀ age, sinceAsked ip after.log = some age →
   arpEntryDefaultTtl ≤ timeLeft after.interface ip + age) : after.Paced := by
 refine ⟨paced.keys.sublist (requests.map _), fun index entry here => ?_, settled⟩
 have member := mem_of_getElem? here
 obtain ⟨age, since, whole⟩ := paced.idle idle (requests.subset member)
 obtain ⟨sameSince, sameReset⟩ := same entry member
 rw [idle']
 exact ⟨age, sameSince.trans since, sameReset ▸ whole⟩

theorem Paced.sendDatagram [DecidableEq Ethernet] (lawful : headers.Lawful) {dgram : Datagram}
 {nextHop : Address} (taken : watch.step headers (.sendDatagram dgram nextHop) = some after) :
 after.Paced ∧ (RateLimited after.log ↔ RateLimited watch.log) := by
 obtain ⟨idle, same⟩ := Option.ite_none_right_eq_some.mp taken
 cases same
 obtain ⟨mappings, adds⟩ := sendDatagram_adds lawful watch.interface dgram nextHop
 generalize (watch.interface.submit (headers.ipv4Numeric nextHop) dgram).sendDatagram headers dgram
  nextHop = sent at mappings adds ⊢
 generalize headers.ipv4Numeric nextHop = hop at adds ⊢
 rcases adds with ⟨adds, requests⟩ | ⟨adds, unknown, fresh, requests⟩
 · have log := follow_log adds
   rw [nil_append] at log
   refine ⟨paced.fewer idle idle ?_ (fun entry member => ⟨?_, ?_⟩) fun ip absent => ?_, ?_⟩
   · exact requests ▸ List.Sublist.refl _
   · rw [log]
   · split
     · rfl
     · rename_i fresh
       refine update_of_ne (fun same => fresh ?_) _ _
       exact any_eq_true.mpr ⟨entry, requests ▸ member, decide_eq_true same⟩
   · have known : timeLeft sent ip = timeLeft watch.interface ip := by rw [timeLeft, mappings]; rfl
     change ∀ age, _ → _ ≤ timeLeft sent ip + age
     rw [known, log]
     exact paced.settled ip (requests ▸ absent)
   · rw [log]
 · have log := follow_log adds
   have absent : hop ∉ watch.interface.waitingArpResponsIpAddr.map fst := by
    intro member
    obtain ⟨entry, inside, same⟩ := mem_map.mp member
    rw [any_eq_false] at fresh
    exact fresh entry inside (decide_eq_true same)
   refine ⟨⟨?_, fun index entry here => ?_, fun ip absent' => ?_⟩, ?_⟩
   · change (sent.waitingArpResponsIpAddr.map fst).Nodup
     rw [requests, map_append]
     have alone : [hop].Nodup := nodup_cons.mpr ⟨not_mem_nil, nodup_nil⟩
     refine nodup_append.mpr ⟨paced.keys, alone, fun ip inside other new same => absent ?_⟩
     have mine : ip = hop := same.trans (mem_singleton.mp new)
     exact mine ▸ inside
   · have member := mem_of_getElem? here
     change Counts _ _ (ahead watch.pass index) entry
     rw [idle, log, fresh]
     rcases mem_append.mp (requests ▸ member) with old | new
     · obtain ⟨age, since, whole⟩ := paced.idle idle old
       have other : entry.1 ≠ hop := fun same => absent (same ▸ mem_map.mpr ⟨_, old, rfl⟩)
       refine ⟨age, (if_neg other.symm).trans since, ?_⟩
       change entry.2 + age + update watch.reset hop 0 entry.1 = _
       rw [update_of_ne other]
       exact whole
     · rw [mem_singleton.mp new]
       refine ⟨0, if_pos rfl, ?_⟩
       exact congrArg _ (update_self _ _ _)
   · have both : ip ∉ watch.interface.waitingArpResponsIpAddr.map fst ∧ ip ≠ hop := by
      change ip ∉ sent.waitingArpResponsIpAddr.map fst at absent'
      rw [requests, map_append, mem_append, not_or] at absent'
      exact ⟨absent'.1, fun same => absent'.2 (same ▸ mem_singleton_self _)⟩
     have known : timeLeft sent ip = timeLeft watch.interface ip := by rw [timeLeft, mappings]; rfl
     change ∀ age, _ → _ ≤ timeLeft sent ip + age
     rw [known, log]
     intro age since
     exact paced.settled ip both.1 age ((if_neg both.2.symm).symm.trans since)
   · rw [log]
     refine rateLimited_asked_iff.trans (and_iff_left fun age since => ?_)
     have late := paced.settled hop absent age since
     rw [timeLeft, unknown, arpEntryDefaultTtl] at late
     grind

theorem Paced.recvFrame [DecidableEq Ethernet] (lawful : headers.Lawful)
 {frame : EthernetFrame Ethernet Payload}
 (taken : watch.step headers (.recvFrame frame) = some after) :
 after.Paced ∧ (RateLimited after.log ↔ RateLimited watch.log) := by
 obtain ⟨idle, received⟩ := Option.ite_none_right_eq_some.mp taken
 obtain ⟨done, ends, same⟩ := Option.map_eq_some_iff.mp received
 cases same
 dsimp only
 obtain ⟨adds, hears⟩ := recvFrame_adds lawful ends
 have log := follow_log adds
 rw [nil_append] at log
 rw [log]
 generalize replyFrom headers watch.interface frame = reply at hears ⊢
 cases hears with
 | nothing mappings requests =>
  refine ⟨paced.fewer idle idle (requests ▸ List.Sublist.refl _)
   (fun entry member => ⟨rfl, rfl⟩) fun ip absent => ?_, Iff.rfl⟩
  have known : timeLeft done ip = timeLeft watch.interface ip := by rw [timeLeft, mappings]; rfl
  change ∀ age, _ → _ ≤ timeLeft done ip + age
  rw [known]
  exact paced.settled ip (requests ▸ absent)
 | learns sender address answers mappings requests =>
  have since (ip : UInt32) (other : ip ≠ sender) :
   sinceAsked ip ((reply.map Note.answered).toList ++ watch.log) =
    sinceAsked ip watch.log := by
   cases reply with
   | none => rfl
   | some answered =>
    exact if_neg fun same : answered = ip => other (same.symm.trans (answers answered rfl))
  refine ⟨paced.fewer idle idle ?_ (fun entry member => ⟨since _ ?_, rfl⟩)
   fun ip absent => ?_, ?_⟩
  · exact requests ▸ filter_sublist
  · rw [show (follow headers watch done).interface = done from rfl, requests] at member
    simp_all
  · change ∀ age, _ → _ ≤ timeLeft done ip + age
    rw [timeLeft, mappings]
    by_cases mine : ip = sender
    · simp_all
    · rw [update_of_ne mine, since ip mine]
      refine paced.settled ip fun member => absent ?_
      rw [show (follow headers watch done).interface = done from rfl, requests]
      simp_all
  · cases reply with
    | none => exact Iff.rfl
    | some answered => exact rateLimited_cons_iff fun _ => nofun

theorem Paced.tick [DecidableEq Ethernet] (taken : watch.step headers (.tick ms) = some after) :
 after.Paced ∧ (RateLimited after.log ↔ RateLimited watch.log) := by
 obtain ⟨idle, same⟩ := Option.ite_none_right_eq_some.mp taken
 cases same
 have adds : Adds headers watch.interface (watch.interface.aged ms) [.elapsed ms] :=
  (Adds.nothing rfl : Adds headers watch.interface watch.interface []).note rfl rfl
 have log := follow_log adds
 rw [singleton_append] at log
 refine ⟨⟨paced.keys, fun index entry here => ?_, fun ip absent age since => ?_⟩, ?_⟩
 · obtain ⟨age, since, whole⟩ := paced.idle idle (mem_of_getElem? here)
   refine ⟨age + ms, ?_, ?_⟩
   · rw [log, sinceAsked, since]
     rfl
   · change entry.2 + (age + ms) + watch.reset entry.1 = arpResponseDefaultTtl + ms
     omega
 · rw [log] at since
   obtain ⟨early, found, same⟩ := Option.map_eq_some_iff.mp since
   have late := paced.settled ip absent early found
   change arpEntryDefaultTtl ≤ timeLeft (watch.interface.aged ms) ip + age
   rw [timeLeft] at late ⊢
   rw [aged]
   dsimp only
   cases known : watch.interface.ipToEthernet ip with
   | none =>
    grind
   | some entry =>
    rw [known] at late
    dsimp only [Option.bind_some, Option.elim_some] at late ⊢
    split
    all_goals
     grind
 · rw [log]
   exact rateLimited_cons_iff fun _ => nofun

end Watch

/-! ### The rounds of a tick -/

section Rounds

variable {requests : List (UInt32 × ℕ)} {it index : ℕ} {entry other : UInt32 × ℕ}

theorem keys_set (here : requests[it]? = some entry) (second : ℕ) :
 (requests.set it (entry.1, second)).map fst = requests.map fst := by
 obtain ⟨inside, same⟩ := List.getElem?_eq_some_iff.mp here
 have mapped : it < (requests.map fst).length := by rwa [length_map]
 have key : entry.1 = (requests.map fst)[it] := by
  rw [getElem_map, same]
 rw [map_set, key, set_getElem_self]

theorem keys_ne (keys : (requests.map fst).Nodup) (here : requests[it]? = some entry)
 (there : requests[index]? = some other) (differs : index ≠ it) : other.1 ≠ entry.1 := by
 intro same
 have inside := (List.getElem?_eq_some_iff.mp there).1
 have inside' : index < (requests.map fst).length := by rwa [length_map]
 refine differs ((List.getElem?_inj inside' keys).mp ?_)
 simp_all

variable {watch : Watch Address Ethernet Datagram Payload} (paced : watch.Paced)
include paced

variable {after : Watch Address Ethernet Datagram Payload}

theorem Watch.Paced.rounds (here : watch.interface.waitingArpResponsIpAddr[it]? = some entry)
 {second : ℕ} (requests : after.interface.waitingArpResponsIpAddr =
  watch.interface.waitingArpResponsIpAddr.set it (entry.1, second))
 (mappings : after.interface.ipToEthernet = watch.interface.ipToEthernet)
 (one : Counts after.log after.reset (ahead after.pass it) (entry.1, second))
 (passes : ∀ index ≠ it, ahead after.pass index = ahead watch.pass index)
 (others : ∀ ip ≠ entry.1, sinceAsked ip after.log = sinceAsked ip watch.log ∧
  after.reset ip = watch.reset ip) : after.Paced := by
 have keys : after.interface.waitingArpResponsIpAddr.map fst =
  watch.interface.waitingArpResponsIpAddr.map fst := by rw [requests, keys_set here]
 refine ⟨keys ▸ paced.keys, fun index other there => ?_, fun ip absent => ?_⟩
 · rw [requests] at there
   by_cases same : index = it
   · grind
   · rw [getElem?_set_ne (Ne.symm same)] at there
     obtain ⟨age, since, whole⟩ := paced.counts index other there
     obtain ⟨sameSince, sameReset⟩ := others other.1 (keys_ne paced.keys here there same)
     exact ⟨age, sameSince.trans since, by rw [sameReset, passes index same, whole]⟩
 · rw [keys] at absent
   have foreign : ip ≠ entry.1 := by
    rintro rfl
    exact absent (mem_map.mpr ⟨entry, mem_of_getElem? here, rfl⟩)
   rw [(others ip foreign).1, timeLeft, mappings]
   exact paced.settled ip absent

theorem Watch.Paced.counting {ms : ℕ} (now : watch.pass = some (ms, it))
 (here : watch.interface.waitingArpResponsIpAddr[it]? = some entry) :
 ∃ age, sinceAsked entry.1 watch.log = some age ∧
  entry.2 + age + watch.reset entry.1 = arpResponseDefaultTtl + ms := by
 obtain ⟨age, since, whole⟩ := paced.counts it entry here
 rw [now] at whole
 change _ = _ + (if it < it then 0 else ms) at whole
 simp_all

theorem Watch.Paced.renews [DecidableEq Ethernet] {ms : ℕ} (lawful : headers.Lawful)
 (now : watch.pass = some (ms, it))
 (here : watch.interface.waitingArpResponsIpAddr[it]? = some entry) (out : entry.2 ≤ ms)
 (result : { watch.follow headers ((watch.interface.transmit
  (watch.interface.arpRequest headers entry.1) none).wait
   (watch.interface.waitingArpResponsIpAddr.set it (entry.1, arpResponseDefaultTtl))) with
  pass := some (ms, it)
  reset := update watch.reset entry.1 ms } = after) :
 after.Paced ∧ (RateLimited after.log ↔ RateLimited watch.log ∧ watch.OnTime .round) := by
 subst result
 obtain ⟨age, since, whole⟩ := paced.counting now here
 have adds : Adds headers watch.interface ((watch.interface.transmit
  (watch.interface.arpRequest headers entry.1) none).wait
   (watch.interface.waitingArpResponsIpAddr.set it (entry.1, arpResponseDefaultTtl)))
  [.asked entry.1] :=
  (Adds.nothing rfl : Adds headers watch.interface watch.interface []).note rfl
   (congrArg (Option.map _) (requestFor_arpRequest lawful _))
 have log := Watch.follow_log adds
 rw [singleton_append] at log
 refine ⟨paced.rounds here rfl rfl ?_ (fun index other => ?_) fun ip other => ⟨?_, ?_⟩, ?_⟩
 · refine ⟨0, ?_, ?_⟩
   · rw [log]
     exact if_pos rfl
   · change arpResponseDefaultTtl + 0 + update watch.reset entry.1 ms entry.1 =
      _ + (if it < it then 0 else ms)
     simp
 · rw [now]
 · rw [log]
   exact if_neg other.symm
 · exact update_of_ne other _ _
 · rw [log]
   refine rateLimited_asked_iff.trans (and_congr_right fun _ => ?_)
   rw [arpResponseDefaultTtl] at whole
   constructor
   · intro late ms' it' entry' now' here' _
     cases now.symm.trans now'
     cases here.symm.trans here'
     have := late age since
     omega
   · intro onTime early since'
     cases since.symm.trans since'
     have := onTime ms it entry now here out
     omega

theorem Watch.Paced.goesOn [DecidableEq Ethernet] {ms : ℕ} (now : watch.pass = some (ms, it))
 (here : watch.interface.waitingArpResponsIpAddr[it]? = some entry) (waits : ¬ entry.2 ≤ ms)
 (result : { watch.follow headers (watch.interface.wait
  (watch.interface.waitingArpResponsIpAddr.set it (entry.1, entry.2 - ms))) with
  pass := some (ms, it + 1)
  reset := watch.reset } = after) :
 after.Paced ∧ (RateLimited after.log ↔ RateLimited watch.log ∧ watch.OnTime .round) := by
 subst result
 obtain ⟨age, since, whole⟩ := paced.counting now here
 have adds : Adds headers watch.interface (watch.interface.wait
  (watch.interface.waitingArpResponsIpAddr.set it (entry.1, entry.2 - ms))) [] :=
  .nothing rfl
 have log := Watch.follow_log adds
 rw [nil_append] at log
 refine ⟨paced.rounds here rfl rfl ?_ (fun index other => ?_) fun ip _ => ⟨?_, rfl⟩, ?_⟩
 · refine ⟨age, ?_, ?_⟩
   · rw [log]
     exact since
   · change entry.2 - ms + age + watch.reset entry.1 = _ + (if it < it + 1 then 0 else ms)
     rw [if_pos (Nat.lt_succ_self it)]
     omega
 · have same : index < it + 1 ↔ index < it := by omega
   rw [now]
   change (if index < it + 1 then 0 else ms) = if index < it then 0 else ms
   rw [if_congr same rfl rfl]
 · rw [log]
 · rw [log]
   refine (and_iff_left fun ms' it' entry' now' here' out' => ?_).symm
   grind

theorem Watch.Paced.round [DecidableEq Ethernet] (lawful : headers.Lawful)
 (taken : watch.step headers .round = some after) :
 after.Paced ∧ (RateLimited after.log ↔ RateLimited watch.log ∧ watch.OnTime .round) := by
 obtain ⟨⟨ms, it⟩, now, result⟩ := Option.bind_eq_some_iff.mp taken
 dsimp only at result
 split at result
 · rename_i missing
   cases result
   refine ⟨⟨paced.keys, fun index entry here => ?_, paced.settled⟩, ?_⟩
   · have counts := paced.counts index entry here
     have inside := (List.getElem?_eq_some_iff.mp here).1
     have passed : index < it := Nat.lt_of_lt_of_le inside (List.getElem?_eq_none_iff.mp missing)
     rw [now] at counts
     change Counts _ _ (if index < it then 0 else ms) entry at counts
     rw [if_pos passed] at counts
     exact counts
   · refine (and_iff_left fun ms' it' entry now' here => ?_).symm
     simp_all
 · rename_i entry here
   have result := Option.some.inj result
   rw [renewRound] at result
   by_cases out : entry.2 ≤ ms
   · rw [if_pos out, if_pos out] at result
     exact paced.renews lawful now here out result
   · rw [if_neg out, if_neg out] at result
     exact paced.goesOn now here out result

end Rounds

namespace Watch

variable [DecidableEq Ethernet] {watch after : Watch Address Ethernet Datagram Payload}

theorem rounds_of_renewLoop {ms rounds it : ℕ} {done : State Address Ethernet Datagram Payload}
 {visits : List UInt32} (now : watch.pass = some (ms, it))
 (loops : watch.interface.renewLoop headers ms rounds it = some (done, visits)) :
 ∃ after, replay (step headers) watch (replicate (visits.length + 1) .round) = some after ∧
  after.interface = done ∧ after.pass = none := by
 induction rounds generalizing watch it visits with
 | zero => cases loops
 | succ rounds ih =>
  rw [renewLoop] at loops
  split at loops
  · rename_i missing
    cases loops
    refine ⟨{ watch with pass := none }, ?_, rfl, rfl⟩
    change ((watch.step headers .round).bind fun next => replay (step headers) next []) = _
    rw [step, now, Option.bind_some]
    dsimp only
    rw [missing]
    rfl
  · rename_i entry here
    obtain ⟨⟨last, later⟩, others, same⟩ := Option.map_eq_some_iff.mp loops
    cases same
    obtain ⟨next, taken, interface, pass⟩ : ∃ next, watch.step headers .round = some next ∧
     next.interface = (watch.interface.renewRound headers ms it entry).1 ∧
     next.pass = some (ms, (watch.interface.renewRound headers ms it entry).2) := by
     rw [step, now, Option.bind_some]
     dsimp only
     rw [here]
     exact ⟨_, rfl, rfl, rfl⟩
    obtain ⟨after, replayed, ends⟩ := ih pass (interface ▸ others)
    refine ⟨after, ?_, ends⟩
    rw [length_cons, replicate_succ, replay, taken]
    exact replayed

theorem tick_is_rounds {ms rounds : ℕ} {next : State Address Ethernet Datagram Payload}
 (idle : watch.pass = none) (ends : watch.interface.tick headers ms rounds = some next) :
 ∃ (count : ℕ) (after : Watch Address Ethernet Datagram Payload),
  replay (step headers) watch (.tick ms :: replicate count .round) = some after ∧
   after.interface = next ∧ after.pass = none := by
 obtain ⟨rounds', visits, loops⟩ := tick_renews ends
 obtain ⟨began, taken, interface, pass⟩ : ∃ began, watch.step headers (.tick ms) = some began ∧
  began.interface = watch.interface.aged ms ∧ began.pass = some (ms, 0) :=
  ⟨_, if_pos idle, rfl, rfl⟩
 obtain ⟨after, replayed, done⟩ := rounds_of_renewLoop pass (interface ▸ loops)
 exact ⟨visits.length + 1, after, by rw [replay, taken]; exact replayed, done⟩

theorem Paced.step (paced : watch.Paced) (lawful : headers.Lawful)
 {moment : Moment Address Ethernet Datagram Payload}
 (taken : watch.step headers moment = some after) :
 after.Paced ∧ (RateLimited after.log ↔ RateLimited watch.log ∧ watch.OnTime moment) := by
 cases moment with
 | sendDatagram dgram nextHop =>
  obtain ⟨kept, same⟩ := paced.sendDatagram lawful taken
  exact ⟨kept, same.trans (and_iff_left trivial).symm⟩
 | recvFrame frame =>
  obtain ⟨kept, same⟩ := paced.recvFrame lawful taken
  exact ⟨kept, same.trans (and_iff_left trivial).symm⟩
 | tick ms =>
  obtain ⟨kept, same⟩ := paced.tick taken
  exact ⟨kept, same.trans (and_iff_left trivial).symm⟩
 | round => exact paced.round lawful taken

/-- The requests for an IP stay five seconds apart if and only if every countdown that runs out does
so by the length of the tick that started it. -/
theorem requests_rate_limited_iff (lawful : headers.Lawful) (ethernetAddress : Ethernet)
 (ipAddress : Address) (events : List (Moment Address Ethernet Datagram Payload))
 (final : Watch Address Ethernet Datagram Payload)
 (run : Run (ofFunction (step headers)) (start ethernetAddress ipAddress) events final) :
 RateLimited final.log ↔
  Run (Guarded OnTime (ofFunction (step headers))) (start ethernetAddress ipAddress) events
   final := by
 have silent : RateLimited ([] : List Note) := fun after ip between before split => by
  cases after with
  | nil => cases split
  | cons note after => cases split
 refine Run.holds_iff_guarded ⟨start_paced _ _, silent⟩ (fun _ _ _ paced taken => ?_)
  (fun _ _ _ paced taken => (paced.step lawful taken).2) run
 exact (paced.step lawful taken).1

theorem plainHeaders_lawful : (plainHeaders).Lawful :=
 ⟨fun _ => rfl, by decide, by decide⟩

theorem requests_rate_limited_iff_once : ∃ final : Watch UInt32 ℕ ℕ (ℕ ⊕ ArpMessage ℕ),
 final.log = [.asked 9, .elapsed 1, .elapsed 4999, .asked 9] ∧
  (RateLimited final.log ↔ Run (Guarded OnTime (ofFunction (step State.plainHeaders)))
   (start 5 1) [.sendDatagram 70 9, .tick 4999, .round, .round, .tick 1, .round] final) := by
 obtain ⟨final, same, log⟩ : ∃ final : Watch UInt32 ℕ ℕ (ℕ ⊕ ArpMessage ℕ),
  replay (step State.plainHeaders) (start 5 1)
   [.sendDatagram 70 9, .tick 4999, .round, .round, .tick 1, .round] = some final ∧
   final.log = [.asked 9, .elapsed 1, .elapsed 4999, .asked 9] := ⟨_, rfl, rfl⟩
 exact ⟨final, log, requests_rate_limited_iff plainHeaders_lawful 5 1 _ final
  (Run.of_replay_all same)⟩

/-- A tick that renews a request also takes its time from the new countdown. -/
theorem requests_too_often : ¬ ∀ (events : List (Moment UInt32 ℕ ℕ (ℕ ⊕ ArpMessage ℕ))) final,
 Run (ofFunction (step State.plainHeaders)) (start 5 1) events final →
  RateLimited final.log := by
 intro all
 obtain ⟨final, same, log⟩ : ∃ final : Watch UInt32 ℕ ℕ (ℕ ⊕ ArpMessage ℕ),
  replay (step State.plainHeaders) (start 5 1)
   [.sendDatagram 70 9, .tick 4999, .round, .round, .tick 4999, .round, .round, .round,
    .tick 1, .round] = some final ∧
   final.log = [.asked 9, .elapsed 1, .asked 9, .elapsed 4999, .elapsed 4999, .asked 9] :=
  ⟨_, rfl, rfl⟩
 have limited := all _ final (Run.of_replay_all same)
 rw [log] at limited
 have late := limited [] 9 [.elapsed 1] [.elapsed 4999, .elapsed 4999, .asked 9] rfl (by simp)
 exact absurd late (by decide)

end Watch

end MyNotes.Cs144.NetworkInterface
