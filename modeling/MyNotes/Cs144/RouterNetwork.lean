/-
Routers that send to one another: what they send is bounded by the times to live, whatever their
tables are.

A datagram that was sent is on its way until it arrives at some interface or is lost; it is neither
copied nor changed there.
-/

import MyNotes.Library.Transition
import MyNotes.Cs144.Router
import Mathlib.Algebra.GroupWithZero.Nat
import Mathlib.Algebra.BigOperators.Group.Finset.Basic

namespace MyNotes.Cs144.Routing

open Library.Transition Function List Option Network

variable {Address Ethernet Fields Body Payload : Type}

structure Internet (Address Ethernet Fields Body Payload : Type) where
 net : Network Address Ethernet Fields Body Payload
 flying : List (Call Address Fields Body)

inductive Hop (Address : Type) where
 | route (router : Router Address)
 | arrive (pointer : ℕ)
 | lose

/-- What may happen among the interfaces `all`; a router may have another table each time. -/
inductive Hops (env : Environment Address Ethernet Fields Body Payload) (all : Finset ℕ) :
 Internet Address Ethernet Fields Body Payload → Hop Address →
  Internet Address Ethernet Fields Body Payload → Prop
 | route {net after : Network Address Ethernet Fields Body Payload}
  {flying sent : List (Call Address Fields Body)} {router : Router Address} {rounds : ℕ}
  (valid : router.Valid) (among : ∀ interface ∈ router.interfaces, interface ∈ all)
  (enough : ∀ interface ∈ router.interfaces, (net.queue interface).length < rounds)
  (routed : router.route env rounds net = some after) (calls : after.calls = net.calls ++ sent) :
  Hops env all ⟨net, flying⟩ (.route router) ⟨after, flying ++ sent⟩
 | arrive {net : Network Address Ethernet Fields Body Payload} {call : Call Address Fields Body}
  {before behind : List (Call Address Fields Body)} {pointer : ℕ} (among : pointer ∈ all) :
  Hops env all ⟨net, before ++ call :: behind⟩ (.arrive pointer)
   ⟨net.withQueue pointer (net.queue pointer ++ [call.dgram]), before ++ behind⟩
 | lose {net : Network Address Ethernet Fields Body Payload} {call : Call Address Fields Body}
  {before behind : List (Call Address Fields Body)} :
  Hops env all ⟨net, before ++ call :: behind⟩ .lose ⟨net, before ++ behind⟩

/-- How often these datagrams can still be sent on. -/
def lives (datagrams : List (InternetDatagram Fields Body)) : ℕ :=
 (datagrams.map fun dgram => dgram.header.ttl.toNat - 1).sum

@[simp] theorem lives_append (first second : List (InternetDatagram Fields Body)) :
 lives (first ++ second) = lives first + lives second := by
 simp [lives]

/-- The calls, and the sends that all the datagrams on their way and in queues are good for. -/
def Internet.sends (self : Internet Address Ethernet Fields Body Payload) (all : Finset ℕ) : ℕ :=
 self.net.calls.length + lives (self.flying.map Call.dgram) +
  ∑ pointer ∈ all, lives (self.net.queue pointer)

variable {env : Environment Address Ethernet Fields Body Payload} {all : Finset ℕ}
 {net after : Network Address Ethernet Fields Body Payload} {router : Router Address}

/-! ### One routing -/

theorem lives_forwarded (datagrams : List (InternetDatagram Fields Body)) :
 (datagrams.filterMap (forwarded env router)).length +
  lives ((datagrams.filterMap (forwarded env router)).map Call.dgram) ≤ lives datagrams := by
 induction datagrams with
 | nil => exact Nat.le_refl 0
 | cons dgram rest ih =>
  have whole : lives (dgram :: rest) = dgram.header.ttl.toNat - 1 + lives rest := rfl
  cases sent : forwarded env router dgram with
  | none =>
   rw [filterMap_cons_none sent]
   omega
  | some call =>
   obtain ⟨alive, found⟩ := ite_none_right_eq_some.mp sent
   obtain ⟨entry, -, isCall⟩ := bind_eq_some_iff.mp found
   obtain ⟨interface, -, rfl⟩ := map_eq_some_iff.mp isCall
   have less : (dgram.header.ttl - 1).toNat = dgram.header.ttl.toNat - 1 :=
    UInt8.toNat_sub_of_le _ _ (UInt8.le_of_lt alive)
   have positive : 1 < dgram.header.ttl.toNat := alive
   rw [filterMap_cons_some sent, length_cons, map_cons]
   change _ + ((dgram.header.ttl - 1).toNat - 1 + lives _) ≤ _
   omega

theorem sum_queues {pointer : ℕ} (among : pointer ∈ all)
 (others : ∀ other ≠ pointer, after.queue other = net.queue other) :
 lives (net.queue pointer) + ∑ other ∈ all, lives (after.queue other) =
  lives (after.queue pointer) + ∑ other ∈ all, lives (net.queue other) := by
 rw [← Finset.add_sum_erase all _ among, ← Finset.add_sum_erase all _ among,
  Finset.sum_congr rfl fun other member =>
   congrArg lives (others other (Finset.ne_of_mem_erase member))]
 omega

theorem lives_received {interfaces : List ℕ} (among : ∀ interface ∈ interfaces, interface ∈ all) :
 lives (received net interfaces) + ∑ other ∈ all, lives ((net.emptied interfaces).queue other) =
  ∑ other ∈ all, lives (net.queue other) := by
 induction interfaces generalizing net with
 | nil => exact Nat.zero_add _
 | cons interface rest ih =>
  obtain ⟨first, later⟩ := forall_mem_cons.mp among
  have sum := sum_queues first fun other differs =>
   net.queue_withQueue_of_ne differs []
  rw [queue_withQueue] at sum
  rw [received, lives_append, Nat.add_assoc]
  exact (congrArg _ (ih later)).trans (sum.trans (Nat.zero_add _))

/-! ### Runs -/

theorem Hops.sends_le {before next : Internet Address Ethernet Fields Body Payload}
 {hop : Hop Address} (taken : Hops env all before hop next) :
 next.sends all ≤ before.sends all := by
 unfold Internet.sends
 cases taken with
 | @route net after flying sent router rounds valid among enough routed calls =>
  obtain rfl := some.inj (routed.symm.trans (routeAll_eq valid enough))
  rw [emptied_calls, sendAll_calls] at calls
  obtain rfl := append_cancel_left calls
  have fewer := @lives_forwarded _ _ _ _ _ env router (received net router.interfaces)
  have sum := @lives_received _ _ _ _ _ _ net _ among
  have queues : ∀ pointer, ((net.sendAll env ((received net router.interfaces).filterMap
   (forwarded env router))).emptied router.interfaces).queue pointer =
    (net.emptied router.interfaces).queue pointer := by
   intro pointer
   rw [queue, queue, emptied_interfaceAt, emptied_interfaceAt,
    sendAll_queue]
  simp only [queues, emptied_calls, sendAll_calls, length_append, map_append,
   lives_append]
  omega
 | @arrive net call before behind pointer among =>
  have sum := sum_queues among fun other differs =>
   net.queue_withQueue_of_ne differs (net.queue pointer ++ [call.dgram])
  rw [queue_withQueue, lives_append] at sum
  have whole : lives ((before ++ call :: behind).map Call.dgram) =
   lives ((before ++ behind).map Call.dgram) + lives [call.dgram] := by
   simp [lives]
   omega
  have calls : (net.withQueue pointer (net.queue pointer ++ [call.dgram])).calls = net.calls := rfl
  dsimp only
  rw [calls, whole]
  omega
 | lose => simp [lives]

/-- However the routes loop, a datagram is sent on less often than its first time to live. -/
theorem sends_bounded {start final : Internet Address Ethernet Fields Body Payload}
 {hops : List (Hop Address)} (run : Run (Hops env all) start hops final) :
 final.net.calls.length ≤ start.net.calls.length + lives (start.flying.map Call.dgram) +
  ∑ pointer ∈ all, lives (start.net.queue pointer) := by
 have bound := @Run.invariant _ _ _ _ (fun state => state.sends all ≤ start.sends all)
  (Nat.le_refl _) (fun _ _ _ kept taken => (Hops.sends_le taken).trans kept) _ _ run
 exact (Nat.le_add_right _ _).trans ((Nat.le_add_right _ _).trans bound)

theorem sends_bounded_three : ∃ final,
 Run (Hops plainEnvironment {0, 1}) ⟨threeQueued, []⟩ [.route twoRoutes] final ∧
  final.net.calls.length ≤ 5 := by
 have run : Run (Hops plainEnvironment {0, 1}) ⟨threeQueued, []⟩ [.route twoRoutes] _ :=
  .single (@Hops.route _ _ _ _ _ _ _ _ _ _ _ _ 4 ⟨by decide, by decide⟩ (by decide) (by decide)
   rfl rfl)
 exact ⟨_, run, (sends_bounded run).trans_eq rfl⟩

end MyNotes.Cs144.Routing
