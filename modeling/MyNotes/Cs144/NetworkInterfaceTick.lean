/-
The two loops of `tick` of the first network interface, round by round.

A map is the list of its entries in the order of its iterator, which is a place in that list.  The
loops also say which keys they stopped at.
-/

import MyNotes.Cs144.NetworkInterface

namespace MyNotes.Cs144.NetworkInterface

open List Option

variable {Address Ethernet Datagram Payload : Type}

/-- The loop over `_ip_to_ethernet`, from one place on, for so many rounds. -/
def ageLoop (ms : ℕ) : ℕ → List (UInt32 × Ethernet × ℕ) → ℕ →
 Option (List (UInt32 × Ethernet × ℕ) × List UInt32)
 | 0, _, _ => none
 | rounds + 1, table, it =>
  match table[it]? with
  | none => some (table, [])
  | some (ip, address, ttl) =>
   (if ttl ≤ ms then ageLoop ms rounds (table.eraseIdx it) it
   else ageLoop ms rounds (table.set it (ip, address, ttl - ms)) (it + 1)).map
    fun (aged, visits) => (aged, ip :: visits)

namespace State

def aged (self : State Address Ethernet Datagram Payload) (ms : ℕ) :
 State Address Ethernet Datagram Payload :=
 { self with
  ipToEthernet := fun ip => (self.ipToEthernet ip).bind fun entry =>
   if entry.2 ≤ ms then none else some (entry.1, entry.2 - ms)
  history := .elapsed ms :: self.history }

variable (headers : Headers Address Ethernet Datagram Payload)

/-- The state with these requests in `_waiting_arp_respons_ip_addr`. -/
def wait (self : State Address Ethernet Datagram Payload) (requests : List (UInt32 × ℕ)) :
 State Address Ethernet Datagram Payload := { self with waitingArpResponsIpAddr := requests }

/-- One round of the loop over `_waiting_arp_respons_ip_addr`, which goes on only at an entry that
has time left. -/
def renewRound (self : State Address Ethernet Datagram Payload) (ms it : ℕ)
 (entry : UInt32 × ℕ) : State Address Ethernet Datagram Payload × ℕ :=
 if entry.2 ≤ ms then
  ((self.transmit (self.arpRequest headers entry.1) none).wait
   (self.waitingArpResponsIpAddr.set it (entry.1, arpResponseDefaultTtl)), it)
 else (self.wait (self.waitingArpResponsIpAddr.set it (entry.1, entry.2 - ms)), it + 1)

def renewLoop (ms : ℕ) : ℕ → State Address Ethernet Datagram Payload → ℕ →
 Option (State Address Ethernet Datagram Payload × List UInt32)
 | 0, _, _ => none
 | rounds + 1, self, it =>
  match self.waitingArpResponsIpAddr[it]? with
  | none => some (self, [])
  | some entry =>
   let next := self.renewRound headers ms it entry
   (renewLoop ms rounds next.1 next.2).map fun (done, visits) => (done, entry.1 :: visits)

end State

def agedMappings (ms : ℕ) (table : List (UInt32 × Ethernet × ℕ)) : List (UInt32 × Ethernet × ℕ) :=
 (table.filter fun entry => ms < entry.2.2).map fun entry => (entry.1, entry.2.1, entry.2.2 - ms)

/-- A countdown after a tick, started again where it has run out. -/
def agedRequest (ms : ℕ) (entry : UInt32 × ℕ) : UInt32 × ℕ :=
 (entry.1, (if entry.2 ≤ ms then arpResponseDefaultTtl else entry.2) - ms)

/-- Both loops of a tick end after few stops at each entry, with the time of every entry that stays
made less by the tick once. -/
def AgesOnce (headers : Headers Address Ethernet Datagram Payload)
 (table : List (UInt32 × Ethernet × ℕ)) (state : State Address Ethernet Datagram Payload)
 (ms : ℕ) : Prop :=
 ∃ rounds visits done visits',
  ageLoop ms rounds table 0 = some (agedMappings ms table, visits) ∧
  (state.aged ms).renewLoop headers ms rounds 0 = some (done, visits') ∧
  done.waitingArpResponsIpAddr = state.waitingArpResponsIpAddr.map (agedRequest ms) ∧
  (∀ ip, visits.count ip ≤ (table.map Prod.fst).count ip) ∧
  ∀ ip, visits'.count ip ≤ 2 * (state.waitingArpResponsIpAddr.map Prod.fst).count ip

/-! ### The mappings -/

variable {Element : Type}

theorem getElem?_middle (before after : List Element) (entry : Element) :
 (before ++ entry :: after)[before.length]? = some entry := by
 simp

theorem set_middle (before after : List Element) (entry other : Element) :
 (before ++ entry :: after).set before.length other = before ++ other :: after := by
 simp

theorem eraseIdx_middle (before after : List Element) (entry : Element) :
 (before ++ entry :: after).eraseIdx before.length = before ++ after := by
 grind

variable {rounds : ℕ}

theorem ageLoop_spec {ms : ℕ} (passed rest : List (UInt32 × Ethernet × ℕ))
 (enough : rest.length < rounds) :
 ageLoop ms rounds (passed ++ rest) passed.length =
  some (passed ++ agedMappings ms rest, rest.map Prod.fst) := by
 induction rest generalizing passed rounds with
 | nil =>
  obtain ⟨rounds, rfl⟩ := Nat.exists_eq_add_of_lt enough
  rw [append_nil, ageLoop, getElem?_eq_none (Nat.le_refl _)]
  rw [show agedMappings ms ([] : List (UInt32 × Ethernet × ℕ)) = [] from rfl, append_nil]
  rfl
 | cons entry rest ih =>
  obtain ⟨ip, address, ttl⟩ := entry
  cases rounds with
  | zero => cases enough
  | succ rounds =>
   have less : rest.length < rounds := Nat.lt_of_succ_lt_succ enough
   rw [ageLoop, getElem?_middle]
   dsimp only
   by_cases old : ttl ≤ ms
   · rw [if_pos old, eraseIdx_middle, ih passed less]
     simp only [agedMappings, filter_cons, Nat.not_lt.mpr old, decide_false,
      Bool.false_eq_true, if_false, map_some, map_cons]
   · have there : passed.length + 1 = (passed ++ [(ip, address, ttl - ms)]).length := by
      rw [length_append, length_singleton]
     rw [if_neg old, set_middle, append_cons, there, ih _ less]
     simp only [agedMappings, filter_cons, Nat.lt_of_not_le old, decide_true, if_true,
      map_some, map_cons, append_assoc, singleton_append]

/-! ### The requests -/

namespace State

variable {headers : Headers Address Ethernet Datagram Payload}
 {state : State Address Ethernet Datagram Payload} {ms : ℕ}

/-- The keys at which the loop stops for one request. -/
def stops (ms : ℕ) (entry : UInt32 × ℕ) : List UInt32 :=
 if entry.2 ≤ ms then [entry.1, entry.1] else [entry.1]

theorem count_stops (ip : UInt32) (entries : List (UInt32 × ℕ)) :
 (entries.flatMap (stops ms)).count ip ≤ 2 * (entries.map Prod.fst).count ip := by
 induction entries with
 | nil => exact Nat.le_refl _
 | cons entry rest ih =>
  rw [flatMap_cons, count_append, map_cons, count_cons, stops]
  split
  · grind
  · grind

theorem wait_waiting (state : State Address Ethernet Datagram Payload)
 (requests : List (UInt32 × ℕ)) :
 (state.wait requests).waitingArpResponsIpAddr = requests := rfl

variable {passed rest : List (UInt32 × ℕ)} {ip : UInt32} {second : ℕ}

theorem renewRound_left (waiting : state.waitingArpResponsIpAddr = passed ++ (ip, second) :: rest)
 (left : ms < second) :
 state.renewRound headers ms passed.length (ip, second) =
  (state.wait (passed ++ [(ip, second - ms)] ++ rest),
   (passed ++ [(ip, second - ms)]).length) := by
 rw [renewRound, if_neg (Nat.not_le.mpr left), waiting, set_middle, length_append,
  append_cons]
 rfl

theorem renewRound_out (waiting : state.waitingArpResponsIpAddr = passed ++ (ip, second) :: rest)
 (out : second ≤ ms) :
 state.renewRound headers ms passed.length (ip, second) =
  ((state.transmit (state.arpRequest headers ip) none).wait
   (passed ++ (ip, arpResponseDefaultTtl) :: rest), passed.length) := by
 rw [renewRound, if_pos out, waiting, set_middle]

theorem renewLoop_here {entry : UInt32 × ℕ}
 (waiting : state.waitingArpResponsIpAddr = passed ++ entry :: rest) :
 state.renewLoop headers ms (rounds + 1) passed.length =
  let next := state.renewRound headers ms passed.length entry
  (next.1.renewLoop headers ms rounds next.2).map fun (done, visits) =>
   (done, entry.1 :: visits) := by
 rw [renewLoop, waiting, getElem?_middle]

theorem renewLoop_spec (passed rest : List (UInt32 × ℕ))
 (waiting : state.waitingArpResponsIpAddr = passed ++ rest)
 (ends : ms < arpResponseDefaultTtl ∨ ∀ entry ∈ rest, ms < entry.2)
 (enough : 2 * rest.length < rounds) :
 ∃ done, state.renewLoop headers ms rounds passed.length = some (done, rest.flatMap (stops ms)) ∧
  done.waitingArpResponsIpAddr = passed ++ rest.map (agedRequest ms) := by
 induction rest generalizing state passed rounds with
 | nil =>
  obtain ⟨rounds, rfl⟩ := Nat.exists_eq_add_of_lt enough
  refine ⟨state, ?_, waiting⟩
  rw [renewLoop, waiting, append_nil, getElem?_eq_none (Nat.le_refl _)]
  rfl
 | cons entry rest ih =>
  obtain ⟨ip, second⟩ := entry
  rw [length_cons] at enough
  obtain ⟨rounds, rfl⟩ : ∃ fewer, rounds = fewer + 2 := ⟨rounds - 2, by omega⟩
  have later : ms < arpResponseDefaultTtl ∨ ∀ entry ∈ rest, ms < entry.2 :=
   ends.imp_right fun all entry member => all entry (mem_cons_of_mem _ member)
  rw [renewLoop_here waiting, flatMap_cons, stops, map_cons, agedRequest]
  dsimp only
  by_cases out : second ≤ ms
  · have short : ms < arpResponseDefaultTtl :=
     ends.resolve_right fun all => Nat.not_lt.mpr out (all _ mem_cons_self)
    rw [if_pos out, if_pos out, renewRound_out waiting out]
    rw [renewLoop_here rfl, renewRound_left rfl short]
    have fewer : 2 * rest.length < rounds := by omega
    obtain ⟨done, loops, left⟩ := ih (passed ++ [(ip, arpResponseDefaultTtl - ms)])
     (wait_waiting ((state.transmit (state.arpRequest headers ip) none).wait _) _) later fewer
    dsimp only
    rw [loops]
    exact ⟨done, rfl, by simp_all⟩
  · rw [if_neg out, if_neg out, renewRound_left waiting (Nat.lt_of_not_le out)]
    have fewer : 2 * rest.length < rounds + 1 := by omega
    obtain ⟨done, loops, left⟩ := ih (passed ++ [(ip, second - ms)]) (wait_waiting state _)
     later fewer
    rw [loops]
    exact ⟨done, rfl, by simp_all⟩

theorem renewLoop_stuck {it : ℕ} {entry : UInt32 × ℕ} (long : arpResponseDefaultTtl ≤ ms)
 (here : state.waitingArpResponsIpAddr[it]? = some entry) (out : entry.2 ≤ ms) (rounds : ℕ) :
 state.renewLoop headers ms rounds it = none := by
 induction rounds generalizing state entry with
 | zero => rfl
 | succ rounds ih =>
  have inside := (List.getElem?_eq_some_iff.mp here).1
  rw [renewLoop, here]
  dsimp only
  rw [renewRound, if_pos out]
  rw [ih (List.getElem?_set_self inside) long]
  rfl

theorem renewLoop_endless (long : arpResponseDefaultTtl ≤ ms) (passed rest : List (UInt32 × ℕ))
 (waiting : state.waitingArpResponsIpAddr = passed ++ rest)
 (out : ∃ entry ∈ rest, entry.2 ≤ ms) (rounds : ℕ) :
 state.renewLoop headers ms rounds passed.length = none := by
 induction rest generalizing state passed rounds with
 | nil =>
  simp_all
 | cons first rest ih =>
  by_cases now : first.2 ≤ ms
  · exact renewLoop_stuck long (by rw [waiting, getElem?_middle]) now rounds
  · obtain ⟨entry, member, late⟩ := out
    have later : entry ∈ rest := (mem_cons.mp member).resolve_left fun same =>
     now (same ▸ late)
    cases rounds with
    | zero => rfl
    | succ rounds =>
     rw [renewLoop_here waiting, renewRound_left waiting (Nat.lt_of_not_le now)]
     dsimp only
     rw [ih _ (wait_waiting _ _) ⟨entry, later, late⟩ rounds]
     rfl

/-! ### The ticks of a run -/

theorem renewLoop_renew {left : ℕ} {asked : State Address Ethernet Datagram Payload}
 (passed rest : List (UInt32 × ℕ))
 (ends : renew headers ms ip rounds state second = some (asked, left)) :
 ∃ stops, ∀ more, (state.wait (passed ++ (ip, second) :: rest)).renewLoop headers ms
  (more + stops) passed.length =
   ((asked.wait (passed ++ [(ip, left)] ++ rest)).renewLoop headers ms more
    (passed ++ [(ip, left)]).length).map fun (done, visits) =>
     (done, replicate stops ip ++ visits) := by
 induction rounds generalizing state second with
 | zero => cases ends
 | succ rounds ih =>
  rw [renew] at ends
  split at ends
  · rename_i out
    obtain ⟨stops, loops⟩ := ih ends
    refine ⟨stops + 1, fun more => ?_⟩
    have next := loops more
    rw [← Nat.add_assoc, renewLoop_here (wait_waiting _ _),
     renewRound_out (wait_waiting _ _) out]
    change Option.map _ (renewLoop headers ms (more + stops)
     ((state.transmit (state.arpRequest headers ip) none).wait _) _) = _
    rw [next, Option.map_map]
    rfl
  · rename_i fresh
    cases ends
    refine ⟨1, fun more => ?_⟩
    rw [renewLoop_here (wait_waiting _ _),
     renewRound_left (wait_waiting _ _) (Nat.lt_of_not_le fresh)]
    rfl

theorem renewLoop_renewAll {entries later : List (UInt32 × ℕ)}
 {done : State Address Ethernet Datagram Payload} (passed : List (UInt32 × ℕ))
 (ends : renewAll headers ms rounds state entries = some (done, later)) :
 ∃ rounds' visits, (state.wait (passed ++ entries)).renewLoop headers ms rounds'
  passed.length = some (done.wait (passed ++ later), visits) := by
 induction entries generalizing state later passed with
 | nil =>
  cases ends
  refine ⟨1, [], ?_⟩
  rw [renewLoop, wait_waiting, append_nil, getElem?_eq_none (Nat.le_refl _)]
 | cons entry rest ih =>
  obtain ⟨ip, second⟩ := entry
  obtain ⟨⟨asked, left⟩, one, others⟩ := bind_eq_some_iff.mp ends
  obtain ⟨⟨last, after⟩, more, same⟩ := map_eq_some_iff.mp others
  cases same
  obtain ⟨stops, loops⟩ := renewLoop_renew passed rest one
  obtain ⟨rounds', visits, finishes⟩ := ih (passed ++ [(ip, left)]) more
  grind

theorem lookup_agedMappings {table : List (UInt32 × Ethernet × ℕ)}
 (keys : (table.map Prod.fst).Nodup) (ip : UInt32) :
 (agedMappings ms table).lookup ip = (table.lookup ip).bind fun entry =>
  if entry.2 ≤ ms then none else some (entry.1, entry.2 - ms) := by
 induction table with
 | nil => rfl
 | cons entry rest ih =>
  obtain ⟨key, address, ttl⟩ := entry
  obtain ⟨new, others⟩ := nodup_cons.mp keys
  have later := ih others
  rw [agedMappings] at later ⊢
  by_cases here : ip = key
  · subst here
    have none : rest.lookup ip = none := lookup_eq_none_iff.mpr fun entry member => by
     grind
    rw [none] at later
    rw [lookup_cons_self, bind_some]
    by_cases old : ttl ≤ ms
    · rw [filter_cons_of_neg (by simpa using old), later, if_pos old]
      rfl
    · rw [filter_cons_of_pos (by simpa using old), map_cons, lookup_cons_self,
       if_neg old]
  · have differs : (ip == key) = false := beq_eq_false_iff_ne.mpr here
    rw [lookup_cons, differs]
    by_cases old : ttl ≤ ms
    · rw [filter_cons_of_neg (by simpa using old), later]
    · rw [filter_cons_of_pos (by simpa using old), map_cons, lookup_cons,
       differs]
      exact later

theorem tick_renews {next : State Address Ethernet Datagram Payload}
 (ends : state.tick headers ms rounds = some next) :
 ∃ rounds' visits, (state.aged ms).renewLoop headers ms rounds' 0 = some (next, visits) := by
 obtain ⟨⟨done, later⟩, loops, same⟩ := map_eq_some_iff.mp ends
 cases same
 exact renewLoop_renewAll [] loops

theorem tick_eq_loops {next : State Address Ethernet Datagram Payload}
 {table : List (UInt32 × Ethernet × ℕ)} (keys : (table.map Prod.fst).Nodup)
 (known : ∀ ip, state.ipToEthernet ip = table.lookup ip)
 (ends : state.tick headers ms rounds = some next) :
 (∃ visits, ageLoop ms (table.length + 1) table 0 = some (agedMappings ms table, visits)) ∧
  (∀ ip, (state.aged ms).ipToEthernet ip = (agedMappings ms table).lookup ip) ∧
  ∃ rounds' visits, (state.aged ms).renewLoop headers ms rounds' 0 = some (next, visits) := by
 refine ⟨⟨_, ageLoop_spec [] table (Nat.lt_succ_self _)⟩, fun ip => ?_, tick_renews ends⟩
 rw [lookup_agedMappings keys, ← known]
 rfl

theorem tick_eq_loops_known : ∃ visits,
 ageLoop 4 3 [((8 : UInt32), 3, 4), (9, 2, 6)] 0 = some ([(9, 2, 2)], visits) := by
 let known : State UInt32 ℕ ℕ (ℕ ⊕ ArpMessage ℕ) :=
  { (start 5 1).sendDatagram plainHeaders 70 9 with
   ipToEthernet := fun ip => [(8, 3, 4), (9, 2, 6)].lookup ip }
 have ends : known.tick plainHeaders 4 3 = some _ := rfl
 exact (tick_eq_loops (by decide) (fun _ => rfl) ends).1

end State

/-! ### Which ticks end -/

variable (headers : Headers Address Ethernet Datagram Payload)

/-- A tick ends, and ages what stays by its time, if and only if it is shorter than the five seconds
of a new request, or finds no request that has run out. -/
theorem tick_ages_iff (table : List (UInt32 × Ethernet × ℕ))
 (state : State Address Ethernet Datagram Payload) (ms : ℕ) :
 AgesOnce headers table state ms ↔
  ms < arpResponseDefaultTtl ∨ ∀ entry ∈ state.waitingArpResponsIpAddr, ms < entry.2 := by
 have same : (state.aged ms).waitingArpResponsIpAddr = [] ++ state.waitingArpResponsIpAddr := rfl
 constructor
 · rintro ⟨rounds, visits, done, visits', -, ends, -⟩
   by_contra neither
   rw [not_or, Nat.not_lt] at neither
   obtain ⟨long, some⟩ := neither
   have out : ∃ entry ∈ state.waitingArpResponsIpAddr, entry.2 ≤ ms := by
    by_contra none
    refine some fun entry member => ?_
    by_contra late
    exact none ⟨entry, member, Nat.not_lt.mp late⟩
   exact absurd ((State.renewLoop_endless long [] _ same out rounds).symm.trans ends) nofun
 · intro ends
   have enough : 2 * state.waitingArpResponsIpAddr.length <
    table.length + 2 * state.waitingArpResponsIpAddr.length + 1 := by omega
   obtain ⟨done, loops, left⟩ := State.renewLoop_spec [] _ same ends enough
   exact ⟨_, _, done, _, ageLoop_spec [] table (by omega), loops, left, fun _ => Nat.le_refl _,
    fun ip => State.count_stops ip _⟩

/-- The request of a datagram that was just queued runs out in a tick of five seconds. -/
theorem tick_never_ends : ¬ AgesOnce State.plainHeaders []
 ((start 5 1 : State UInt32 ℕ ℕ (ℕ ⊕ ArpMessage ℕ)).sendDatagram State.plainHeaders 70 9)
 5000 := by
 rintro ⟨rounds, visits, done, visits', -, ends, -⟩
 have here : (State.aged ((start 5 1).sendDatagram State.plainHeaders 70 9)
  5000).waitingArpResponsIpAddr[0]? = some (9, arpResponseDefaultTtl) := rfl
 have out : (9, arpResponseDefaultTtl).2 ≤ 5000 := Nat.le_refl _
 exact absurd ((State.renewLoop_stuck (Nat.le_refl _) here out rounds).symm.trans ends) nofun

end MyNotes.Cs144.NetworkInterface
