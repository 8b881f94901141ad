/-
The router of lab 6, which sends what its interfaces have received on to other interfaces.

An interface is a shared pointer into the network, so that one may be added twice.  The network also
lists the calls of `send_datagram`, in their order.
-/

import MyNotes.Cs144.NetworkInterface
import Mathlib.Data.List.MinMax

namespace MyNotes.Cs144.Routing

open NetworkInterface (Headers)
open Function List Option Nat NetworkInterface.State

variable {Address Ethernet Fields Body Payload : Type}

structure IPv4Header (Fields : Type) where
 ttl : UInt8
 cksum : UInt16
 dst : UInt32
 others : Fields

structure InternetDatagram (Fields Body : Type) where
 header : IPv4Header Fields
 payload : Body

structure Entry (Address : Type) where
 routePrefix : UInt32
 prefixLength : UInt8
 nextHop : Option Address
 interfaceNum : ℕ

structure Router (Address : Type) where
 interfaces : List ℕ
 entryTable : List (Entry Address)

abbrev Interface (Address Ethernet Fields Body Payload : Type) :=
 NetworkInterface.State Address Ethernet (InternetDatagram Fields Body) Payload

structure Call (Address Fields Body : Type) where
 interface : ℕ
 dgram : InternetDatagram Fields Body
 nextHop : Address

structure Network (Address Ethernet Fields Body Payload : Type) where
 interfaceAt : ℕ → Interface Address Ethernet Fields Body Payload
 calls : List (Call Address Fields Body)

/-- What the headers of the lab provide for a router. -/
structure Environment (Address Ethernet Fields Body Payload : Type) where
 headers : Headers Address Ethernet (InternetDatagram Fields Body) Payload
 checksum : IPv4Header Fields → UInt16
 fromIpv4Numeric : UInt32 → Address

/-- `x >> count` of 32 bits, which is not defined for other counts. -/
def shiftRight (x : UInt32) (count : ℤ) : Option UInt32 :=
 if 0 ≤ count ∧ count < 32 then some (x >>> UInt32.ofNat count.toNat) else none

/-- Whether the condition of the loop over the table holds. -/
def Entry.applies (it : Entry Address) (dstIpAddr : UInt32) : Option Bool :=
 if it.prefixLength = 0 then some true
 else (shiftRight (it.routePrefix ^^^ dstIpAddr) (32 - it.prefixLength.toNat)).map fun rest =>
  rest == 0

def findMax (dstIpAddr : UInt32) : List (Entry Address) → Option (Entry Address) →
 Option (Option (Entry Address))
 | [], maxIt => some maxIt
 | it :: rest, maxIt =>
  (it.applies dstIpAddr).bind fun applies =>
   findMax dstIpAddr rest
    (if applies then
     match maxIt with
     | none => some it
     | some best => if best.prefixLength < it.prefixLength then some it else some best
    else maxIt)

namespace Network

variable (env : Environment Address Ethernet Fields Body Payload)

section

variable (self : Network Address Ethernet Fields Body Payload)

def setInterface (pointer : ℕ) (interface : Interface Address Ethernet Fields Body Payload) :
 Network Address Ethernet Fields Body Payload :=
 { self with interfaceAt := update self.interfaceAt pointer interface }

/-- `send_datagram` of an interface. -/
def send (call : Call Address Fields Body) : Network Address Ethernet Fields Body Payload :=
 { self.setInterface call.interface
  (((self.interfaceAt call.interface).submit (env.headers.ipv4Numeric call.nextHop)
   call.dgram).sendDatagram env.headers call.dgram call.nextHop) with
  calls := self.calls ++ [call] }

def queue (pointer : ℕ) : List (InternetDatagram Fields Body) :=
 (self.interfaceAt pointer).datagramsReceived

def withQueue (pointer : ℕ) (datagrams : List (InternetDatagram Fields Body)) :
 Network Address Ethernet Fields Body Payload :=
 self.setInterface pointer { self.interfaceAt pointer with datagramsReceived := datagrams }

end

end Network

namespace Router

def addInterface (self : Router Address) (interface : ℕ) : Router Address × ℕ :=
 ({ self with interfaces := self.interfaces ++ [interface] }, self.interfaces.length)

def addRoute (self : Router Address) (routePrefix : UInt32) (prefixLength : UInt8)
 (nextHop : Option Address) (interfaceNum : ℕ) : Router Address :=
 { self with
  entryTable := self.entryTable ++ [⟨routePrefix, prefixLength, nextHop, interfaceNum⟩] }

variable (env : Environment Address Ethernet Fields Body Payload)

/-- One datagram of `route`, up to its `pop`. -/
def routeDatagram (self : Router Address) (net : Network Address Ethernet Fields Body Payload)
 (datagrm : InternetDatagram Fields Body) :
 Option (Network Address Ethernet Fields Body Payload) :=
 let dstIpAddr := datagrm.header.dst
 (findMax dstIpAddr self.entryTable none).bind fun maxIt =>
  match maxIt with
  | none => some net
  | some maxIt =>
   let header := { datagrm.header with ttl := datagrm.header.ttl - 1 }
   if datagrm.header.ttl > 1 then
    let datagrm := { datagrm with header := { header with cksum := env.checksum header } }
    (self.interfaces[maxIt.interfaceNum]?).map fun sendInterface =>
     match maxIt.nextHop with
     | some nextHop => net.send env ⟨sendInterface, datagrm, nextHop⟩
     | none => net.send env ⟨sendInterface, datagrm, env.fromIpv4Numeric dstIpAddr⟩
   else some net

/-- The loop over the datagrams of an interface, for so many rounds. -/
def routeInterface (self : Router Address) (interface : ℕ) :
 ℕ → Network Address Ethernet Fields Body Payload →
  Option (Network Address Ethernet Fields Body Payload)
 | 0, _ => none
 | rounds + 1, net =>
  match net.queue interface with
  | [] => some net
  | datagrm :: _ =>
   (self.routeDatagram env net datagrm).bind fun sent =>
    routeInterface self interface rounds
     (sent.withQueue interface (sent.queue interface).tail)

def routeAll (self : Router Address) (rounds : ℕ) :
 List ℕ → Network Address Ethernet Fields Body Payload →
  Option (Network Address Ethernet Fields Body Payload)
 | [], net => some net
 | interface :: rest, net =>
  (self.routeInterface env interface rounds net).bind (routeAll self rounds rest)

def route (self : Router Address) (rounds : ℕ)
 (net : Network Address Ethernet Fields Body Payload) :
 Option (Network Address Ethernet Fields Body Payload) :=
 self.routeAll env rounds self.interfaces net

end Router

/-! ### What the router is for -/

/-- The first bits of two addresses, so many, are the same. -/
def SamePrefix (length : ℕ) (left right : UInt32) : Prop :=
 ∀ bit, bit < 32 → 32 ≤ bit + length → left.toNat.testBit bit = right.toNat.testBit bit

instance (length : ℕ) (left right : UInt32) : Decidable (SamePrefix length left right) :=
 inferInstanceAs (Decidable (∀ bit, bit < 32 → 32 ≤ bit + length →
  left.toNat.testBit bit = right.toNat.testBit bit))

def Entry.Matches (entry : Entry Address) (dst : UInt32) : Prop :=
 SamePrefix entry.prefixLength.toNat entry.routePrefix dst

instance (entry : Entry Address) (dst : UInt32) : Decidable (entry.Matches dst) :=
 inferInstanceAs (Decidable (SamePrefix entry.prefixLength.toNat entry.routePrefix dst))

/-- The first of the longest entries for a destination. -/
def longestMatch (table : List (Entry Address)) (dst : UInt32) : Option (Entry Address) :=
 (table.filter fun entry => entry.Matches dst).argmax fun entry => entry.prefixLength.toNat

variable (env : Environment Address Ethernet Fields Body Payload)

/-- A datagram with one hop less to live, and its new checksum. -/
def older (dgram : InternetDatagram Fields Body) : InternetDatagram Fields Body :=
 let header := { dgram.header with ttl := dgram.header.ttl - 1 }
 { dgram with header := { header with cksum := env.checksum header } }

/-- The call that a datagram is sent on with, if it is. -/
def forwarded (router : Router Address) (dgram : InternetDatagram Fields Body) :
 Option (Call Address Fields Body) :=
 if 1 < dgram.header.ttl then
  (longestMatch router.entryTable dgram.header.dst).bind fun entry =>
   router.interfaces[entry.interfaceNum]?.map fun interface =>
    ⟨interface, older env dgram, entry.nextHop.getD (env.fromIpv4Numeric dgram.header.dst)⟩
 else none

/-- The queues of these interfaces, each of them once. -/
def received (net : Network Address Ethernet Fields Body Payload) :
 List ℕ → List (InternetDatagram Fields Body)
 | [] => []
 | interface :: rest =>
  net.queue interface ++ received (net.withQueue interface []) rest

def Network.sendAll (net : Network Address Ethernet Fields Body Payload)
 (calls : List (Call Address Fields Body)) : Network Address Ethernet Fields Body Payload :=
 calls.foldl (Network.send env) net

def Network.emptied (net : Network Address Ethernet Fields Body Payload) (interfaces : List ℕ) :
 Network Address Ethernet Fields Body Payload :=
 interfaces.foldl (fun net interface => net.withQueue interface []) net

/-! ### The longest match -/

theorem shiftRight_eq_zero_iff {length : ℕ} (some : 0 < length) (short : length ≤ 32)
 (left right : UInt32) :
 (shiftRight (left ^^^ right) (32 - length)).map (fun rest => rest == 0) =
  .some (decide (SamePrefix length left right)) := by
 have count : ((32 : ℤ) - length).toNat = 32 - length := by omega
 have small : (UInt32.ofNat (32 - length)).toNat % 32 = 32 - length := by
  rw [UInt32.toNat_ofNat']
  omega
 rw [shiftRight, if_pos (by omega), map_some, count, Option.some.injEq,
  Bool.eq_iff_iff, beq_iff_eq, decide_eq_true_iff, ← UInt32.toNat_inj, UInt32.toNat_shiftRight,
  UInt32.toNat_xor, small]
 constructor
 · intro zero bit inside high
   have clear : ((left.toNat ^^^ right.toNat) >>> (32 - length)).testBit
    (bit - (32 - length)) = false := by
    rw [zero]
    exact Nat.zero_testBit _
   rw [Nat.testBit_shiftRight, show 32 - length + (bit - (32 - length)) = bit by omega,
    Nat.testBit_xor] at clear
   exact bne_eq_false_iff_eq.mp clear
 · intro same
   refine Nat.eq_of_testBit_eq fun bit => ?_
   rw [Nat.testBit_shiftRight, Nat.testBit_xor, UInt32.toNat_zero, Nat.zero_testBit,
    bne_eq_false_iff_eq]
   by_cases inside : 32 - length + bit < 32
   · exact same _ inside (by omega)
   · have beyond (address : UInt32) : address.toNat.testBit (32 - length + bit) = false :=
      Nat.testBit_lt_two_pow (Nat.lt_of_lt_of_le address.toNat_lt
       (Nat.pow_le_pow_right (by decide) (Nat.le_of_not_lt inside)))
     rw [beyond left, beyond right]

theorem Entry.applies_eq {entry : Entry Address} (short : entry.prefixLength ≤ 32) (dst : UInt32) :
 entry.applies dst = some (decide (entry.Matches dst)) := by
 rw [Entry.applies]
 by_cases zero : entry.prefixLength = 0
 · have all : entry.Matches dst := by
    rw [Entry.Matches, zero]
    exact fun bit inside high => absurd inside (Nat.not_lt.mpr high)
   rw [if_pos zero, decide_eq_true all]
 · rw [if_neg zero]
   have positive : 0 < entry.prefixLength.toNat := by
    refine Nat.pos_of_ne_zero fun none => zero ?_
    rw [← UInt8.toNat_inj, none]
    rfl
   exact shiftRight_eq_zero_iff positive (UInt8.le_iff_toNat_le.mp short) _ _

variable {table : List (Entry Address)}

theorem findMax_eq (short : ∀ entry ∈ table, entry.prefixLength ≤ 32) (dst : UInt32)
 (best : Option (Entry Address)) :
 findMax dst table best = some ((table.filter fun entry => entry.Matches dst).foldl
  (argAux fun it max => max.prefixLength.toNat < it.prefixLength.toNat) best) := by
 induction table generalizing best with
 | nil => rfl
 | cons entry rest ih =>
  obtain ⟨first, others⟩ := forall_mem_cons.mp short
  unfold findMax
  rw [Entry.applies_eq first, bind_some, ih others, filter_cons]
  by_cases same : entry.Matches dst
  · rw [decide_eq_true same, if_pos rfl, if_pos rfl, foldl_cons]
    cases best with
    | none => rfl
    | some max =>
     rw [argAux]
     dsimp only
     rw [if_congr UInt8.lt_iff_toNat_lt rfl rfl]
  · simp_all

theorem findMax_eq_longestMatch (short : ∀ entry ∈ table, entry.prefixLength ≤ 32) (dst : UInt32) :
 findMax dst table none = some (longestMatch table dst) :=
 findMax_eq short dst none

theorem longestMatch_cons (entry : Entry Address) (rest : List (Entry Address)) (dst : UInt32) :
 longestMatch (entry :: rest) dst =
  if entry.Matches dst then
   some ((longestMatch rest dst).elim entry fun best =>
    if entry.prefixLength < best.prefixLength then best else entry)
  else longestMatch rest dst := by
 by_cases same : entry.Matches dst
 · rw [if_pos same, longestMatch, filter_cons, if_pos (decide_eq_true same),
    argmax_cons, longestMatch]
   cases ((rest.filter fun entry => entry.Matches dst).argmax fun entry =>
    entry.prefixLength.toNat) with
   | none => rfl
   | some best =>
    dsimp only [elim_some]
    rw [if_congr UInt8.lt_iff_toNat_lt.symm rfl rfl, ← apply_ite]
 · have differs : ¬ decide (entry.Matches dst) = true := fun holds =>
    same (of_decide_eq_true holds)
   rw [if_neg same, longestMatch, filter_cons, if_neg differs]
   rfl

theorem longestMatch_eq_none_iff {dst : UInt32} :
 longestMatch table dst = none ↔ ∀ entry ∈ table, ¬ entry.Matches dst := by
 rw [longestMatch, argmax_eq_none, filter_eq_nil_iff]
 simp

theorem longestMatch_spec {dst : UInt32} {best : Entry Address}
 (found : longestMatch table dst = some best) :
 ∃ before after, table = before ++ best :: after ∧ best.Matches dst ∧
  (∀ other ∈ before, other.Matches dst → other.prefixLength < best.prefixLength) ∧
  ∀ other ∈ after, other.Matches dst → other.prefixLength ≤ best.prefixLength := by
 induction table generalizing best with
 | nil => cases found
 | cons entry rest ih =>
  rw [longestMatch_cons] at found
  by_cases same : entry.Matches dst
  · rw [if_pos same] at found
    cases later : longestMatch rest dst with
    | none =>
     rw [later] at found
     cases found
     exact ⟨[], rest, rfl, same, nofun, fun other member matches' =>
      absurd matches' (longestMatch_eq_none_iff.mp later other member)⟩
    | some next =>
     rw [later, elim_some, some.injEq] at found
     obtain ⟨before, after, split, first, shorter, most⟩ := ih later
     by_cases longer : entry.prefixLength < next.prefixLength
     · rw [if_pos longer] at found
       subst found
       refine ⟨entry :: before, after, congrArg _ split, first, fun other member => ?_, most⟩
       rcases mem_cons.mp member with rfl | inside
       · exact fun _ => longer
       · exact shorter other inside
     · rw [if_neg longer] at found
       subst found
       refine ⟨[], rest, rfl, same, nofun, fun other member matches' => ?_⟩
       have least : next.prefixLength ≤ entry.prefixLength := UInt8.not_lt.mp longer
       rw [split] at member
       rcases mem_append.mp member with early | late
       · grind
       · rcases mem_cons.mp late with rfl | behind
         · exact least
         · grind
  · rw [if_neg same] at found
    obtain ⟨before, after, split, first, shorter, most⟩ := ih found
    refine ⟨entry :: before, after, congrArg _ split, first, fun other member => ?_, most⟩
    rcases mem_cons.mp member with rfl | inside
    · exact fun matches' => absurd matches' same
    · exact shorter other inside

/-! ### The calls -/

variable {env} {net : Network Address Ethernet Fields Body Payload} {router : Router Address}

namespace Network

theorem withQueue_self (pointer : ℕ) (datagrams : List (InternetDatagram Fields Body)) :
 (net.withQueue pointer datagrams).interfaceAt pointer =
  { net.interfaceAt pointer with datagramsReceived := datagrams } :=
 update_self _ _ _

theorem withQueue_of_ne {pointer other : ℕ} (differs : other ≠ pointer)
 (datagrams : List (InternetDatagram Fields Body)) :
 (net.withQueue pointer datagrams).interfaceAt other = net.interfaceAt other :=
 update_of_ne differs _ _

theorem queue_withQueue (pointer : ℕ) (datagrams : List (InternetDatagram Fields Body)) :
 (net.withQueue pointer datagrams).queue pointer = datagrams := by
 rw [queue, withQueue_self]

theorem queue_withQueue_of_ne {pointer other : ℕ} (differs : other ≠ pointer)
 (datagrams : List (InternetDatagram Fields Body)) :
 (net.withQueue pointer datagrams).queue other = net.queue other := by
 rw [queue, withQueue_of_ne differs, queue]

theorem withQueue_queue (pointer : ℕ) : net.withQueue pointer (net.queue pointer) = net := by
 have same : ({ net.interfaceAt pointer with datagramsReceived := net.queue pointer } :
  Interface Address Ethernet Fields Body Payload) = net.interfaceAt pointer := rfl
 rw [withQueue, setInterface, same, update_eq_self]

theorem withQueue_withQueue (pointer : ℕ) (first second : List (InternetDatagram Fields Body)) :
 (net.withQueue pointer first).withQueue pointer second = net.withQueue pointer second := by
 simp only [withQueue, setInterface, update_self, update_idem]

theorem sendDatagram_queue (interface : Interface Address Ethernet Fields Body Payload)
 (hop : UInt32) (dgram : InternetDatagram Fields Body) (nextHop : Address)
 (datagrams : List (InternetDatagram Fields Body)) :
 (({ interface with datagramsReceived := datagrams } :
  Interface Address Ethernet Fields Body Payload).submit hop dgram).sendDatagram env.headers
   dgram nextHop =
  { (interface.submit hop dgram).sendDatagram env.headers dgram nextHop with
   datagramsReceived := datagrams } := by
 unfold sendDatagram submit
 dsimp only
 split
 · split
   · rfl
   · rfl
 · rfl

theorem sendDatagram_received (interface : Interface Address Ethernet Fields Body Payload)
 (hop : UInt32) (dgram : InternetDatagram Fields Body) (nextHop : Address) :
 ((interface.submit hop dgram).sendDatagram env.headers dgram nextHop).datagramsReceived =
  interface.datagramsReceived := by
 unfold sendDatagram submit
 dsimp only
 split
 · split
   · rfl
   · rfl
 · rfl

theorem send_queue (call : Call Address Fields Body) (pointer : ℕ) :
 (net.send env call).queue pointer = net.queue pointer := by
 change (update net.interfaceAt _ _ pointer).datagramsReceived = _
 by_cases same : pointer = call.interface
 · rw [same, update_self, sendDatagram_received]
   rfl
 · rw [update_of_ne same]
   rfl

theorem send_withQueue (call : Call Address Fields Body) (pointer : ℕ)
 (datagrams : List (InternetDatagram Fields Body)) :
 (net.withQueue pointer datagrams).send env call =
  (net.send env call).withQueue pointer datagrams := by
 simp only [send, withQueue, setInterface]
 by_cases same : call.interface = pointer
 · subst same
   rw [update_self, update_self, update_idem, update_idem,
    sendDatagram_queue]
 · rw [update_of_ne same, update_of_ne (Ne.symm same),
    update_comm (Ne.symm same)]

theorem sendAll_queue (calls : List (Call Address Fields Body)) (pointer : ℕ) :
 (net.sendAll env calls).queue pointer = net.queue pointer := by
 induction calls generalizing net with
 | nil => rfl
 | cons call rest ih => exact ih.trans (send_queue call pointer)

theorem sendAll_withQueue (calls : List (Call Address Fields Body)) (pointer : ℕ)
 (datagrams : List (InternetDatagram Fields Body)) :
 (net.withQueue pointer datagrams).sendAll env calls =
  (net.sendAll env calls).withQueue pointer datagrams := by
 induction calls generalizing net with
 | nil => rfl
 | cons call rest ih =>
  change ((net.withQueue pointer datagrams).send env call).sendAll env rest = _
  rw [send_withQueue, ih]
  rfl

theorem sendAll_append (first second : List (Call Address Fields Body)) :
 net.sendAll env (first ++ second) = (net.sendAll env first).sendAll env second :=
 foldl_append

theorem sendAll_calls (calls : List (Call Address Fields Body)) :
 (net.sendAll env calls).calls = net.calls ++ calls := by
 induction calls generalizing net with
 | nil => exact (append_nil _).symm
 | cons call rest ih => exact ih.trans (append_assoc _ _ _)

theorem emptied_calls (interfaces : List ℕ) : (net.emptied interfaces).calls = net.calls := by
 induction interfaces generalizing net with
 | nil => rfl
 | cons interface rest ih => exact ih

theorem emptied_interfaceAt (interfaces : List ℕ) (pointer : ℕ) :
 (net.emptied interfaces).interfaceAt pointer =
  { net.interfaceAt pointer with
   datagramsReceived := if pointer ∈ interfaces then [] else net.queue pointer } := by
 induction interfaces generalizing net with
 | nil => rfl
 | cons interface rest ih =>
  refine ih.trans ?_
  by_cases same : pointer = interface
  · subst same
    rw [queue_withQueue, if_pos mem_cons_self, ite_self, withQueue_self]
  · have members : pointer ∈ interface :: rest ↔ pointer ∈ rest := by
     rw [mem_cons, or_iff_right same]
    rw [queue_withQueue_of_ne same, if_congr members rfl rfl, withQueue_of_ne same]

end Network

/-! ### The loops -/

/-- What the table and the numbers in it have to be. -/
structure Router.Valid (router : Router Address) : Prop where
 lengths : ∀ entry ∈ router.entryTable, entry.prefixLength ≤ 32
 numbers : ∀ entry ∈ router.entryTable, entry.interfaceNum < router.interfaces.length

theorem routeDatagram_eq (valid : router.Valid) (dgram : InternetDatagram Fields Body) :
 router.routeDatagram env net dgram =
  some (net.sendAll env (forwarded env router dgram).toList) := by
 rw [Router.routeDatagram]
 rw [findMax_eq_longestMatch valid.lengths, bind_some, forwarded]
 cases found : longestMatch router.entryTable dgram.header.dst with
 | none =>
  rw [bind_none, ite_self]
  rfl
 | some entry =>
  dsimp only
  by_cases alive : dgram.header.ttl > 1
  · obtain ⟨before, after, split, -⟩ := longestMatch_spec found
    have inside := valid.numbers entry (split ▸ mem_append_right _ mem_cons_self)
    rw [if_pos alive, if_pos alive, bind_some, getElem?_eq_getElem inside,
     map_some, map_some]
    cases entry.nextHop with
    | none => rfl
    | some nextHop => rfl
  · rw [if_neg alive, if_neg alive]
    rfl

theorem routeInterface_eq (valid : router.Valid) {interface rounds : ℕ}
 {datagrams : List (InternetDatagram Fields Body)} (queued : net.queue interface = datagrams)
 (enough : datagrams.length < rounds) :
 router.routeInterface env interface rounds net =
  some ((net.sendAll env (datagrams.filterMap (forwarded env router))).withQueue interface
   []) := by
 induction datagrams generalizing net rounds with
 | nil =>
  cases rounds with
  | zero => cases enough
  | succ rounds =>
   unfold Router.routeInterface
   rw [queued]
   have already := net.withQueue_queue interface
   rw [queued] at already
   exact congrArg some already.symm
 | cons dgram rest ih =>
  cases rounds with
  | zero => cases enough
  | succ rounds =>
   unfold Router.routeInterface
   rw [queued]
   dsimp only
   rw [routeDatagram_eq valid, bind_some, Network.sendAll_queue, queued,
    tail_cons, ih (Network.queue_withQueue _ _) (lt_of_succ_lt_succ enough),
    Network.sendAll_withQueue, Network.withQueue_withQueue, ← Network.sendAll_append]
   cases none : forwarded env router dgram with
   | none => rw [filterMap_cons_none none]; rfl
   | some call => rw [filterMap_cons_some none]; rfl

theorem received_congr {other : Network Address Ethernet Fields Body Payload} (interfaces : List ℕ)
 (same : ∀ pointer, other.queue pointer = net.queue pointer) :
 received other interfaces = received net interfaces := by
 induction interfaces generalizing net other with
 | nil => rfl
 | cons interface rest ih =>
  rw [received, received, same, ih fun pointer => ?_]
  by_cases mine : pointer = interface
  · rw [mine, Network.queue_withQueue, Network.queue_withQueue]
  · rw [Network.queue_withQueue_of_ne mine, Network.queue_withQueue_of_ne mine, same]

theorem routeAll_eq (valid : router.Valid) {rounds : ℕ} {interfaces : List ℕ}
 (enough : ∀ interface ∈ interfaces, (net.queue interface).length < rounds) :
 router.routeAll env rounds interfaces net = some ((net.sendAll env
  ((received net interfaces).filterMap (forwarded env router))).emptied interfaces) := by
 induction interfaces generalizing net with
 | nil => rfl
 | cons interface rest ih =>
  obtain ⟨first, others⟩ := forall_mem_cons.mp enough
  rw [Router.routeAll, routeInterface_eq valid rfl first, bind_some]
  generalize sent : ((net.queue interface).filterMap (forwarded env router)) = calls
  have queues (pointer : ℕ) : ((net.sendAll env calls).withQueue interface []).queue pointer =
   (net.withQueue interface []).queue pointer := by
   rw [← Network.sendAll_withQueue, Network.sendAll_queue]
  rw [ih fun pointer member => ?_, received_congr rest queues, received, filterMap_append,
   sent, Network.sendAll_append, Network.sendAll_withQueue]
  · rfl
  · rw [queues]
    by_cases mine : pointer = interface
    · rw [mine, Network.queue_withQueue]
      exact zero_lt_of_lt first
    · rw [Network.queue_withQueue_of_ne mine]
      exact others pointer member

variable (env)

/-- Every datagram in a queue is taken out, and sent on once by the longest match if it lives and
there is one; the interfaces change by these calls alone. -/
theorem route_forwards (router : Router Address) (valid : router.Valid)
 (net : Network Address Ethernet Fields Body Payload) (rounds : ℕ)
 (enough : ∀ interface ∈ router.interfaces, (net.queue interface).length < rounds) :
 ∃ after, router.route env rounds net = some after ∧
  after.calls = net.calls ++
   (received net router.interfaces).filterMap (forwarded env router) ∧
  (∀ interface ∈ router.interfaces, after.queue interface = []) ∧
  ∀ interface, after.interfaceAt interface =
   { (net.sendAll env ((received net router.interfaces).filterMap
    (forwarded env router))).interfaceAt interface with
    datagramsReceived := after.queue interface } := by
 refine ⟨_, routeAll_eq valid enough, ?_, fun interface member => ?_, fun interface => ?_⟩
 · rw [Network.emptied_calls, Network.sendAll_calls]
 · rw [Network.queue, Network.emptied_interfaceAt, if_pos member]
 · rw [Network.queue, Network.emptied_interfaceAt]

/-- Payloads that are kept as what was serialized, and a checksum of the time to live. -/
def plainEnvironment : Environment UInt32 ℕ Unit ℕ
 (InternetDatagram Unit ℕ ⊕ NetworkInterface.ArpMessage ℕ) where
 headers :=
  { ipv4Numeric := id
    serializeDatagram := .inl
    parseDatagram := fun payload => payload.elim some fun _ => none
    serializeArp := .inr
    parseArp := fun payload => payload.elim (fun _ => none) some
    ethernetBroadcast := 0xFFFFFFFFFFFF
    noEthernet := 0
    typeIPv4 := 0x0800
    typeArp := 0x0806
    opcodeRequest := 1
    opcodeReply := 2 }
 checksum header := 1000 + header.ttl.toUInt16
 fromIpv4Numeric := id

/-- A default route and a network that is attached. -/
def twoRoutes : Router UInt32 :=
 ((⟨[0, 1], []⟩ : Router UInt32).addRoute 0 0 (some 7) 0).addRoute 0x0A000000 8 none 1

def threeQueued : Network UInt32 ℕ Unit ℕ
 (InternetDatagram Unit ℕ ⊕ NetworkInterface.ArpMessage ℕ) where
 interfaceAt pointer :=
  { NetworkInterface.start 5 1 with
   datagramsReceived := if pointer = 0 then
    [⟨⟨1, 0, 0x0A000001, ()⟩, 70⟩, ⟨⟨5, 0, 0x08080808, ()⟩, 71⟩,
     ⟨⟨2, 0, 0x0A010203, ()⟩, 72⟩]
    else [] }
 calls := []

theorem route_forwards_three : ∃ after,
 twoRoutes.route plainEnvironment 4 threeQueued = some after ∧
  after.calls = [⟨0, ⟨⟨4, 1004, 0x08080808, ()⟩, 71⟩, 7⟩,
   ⟨1, ⟨⟨1, 1001, 0x0A010203, ()⟩, 72⟩, 0x0A010203⟩] := by
 obtain ⟨after, routed, calls, -⟩ := route_forwards plainEnvironment twoRoutes
  ⟨by decide, by decide⟩ threeQueued 4 (by decide)
 exact ⟨after, routed, calls.trans rfl⟩

end MyNotes.Cs144.Routing
