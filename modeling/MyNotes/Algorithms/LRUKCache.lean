/-
The LRU-K cache of the search notes: a key enters the cache after `k` puts.

`put` starts the count of a key that is not cached at one, whatever it was, so a key enters
the cache at its first put or never.  The lock is left out, for every call holds it from
its first line to its last.
-/

import MyNotes.Library.RecencyList

namespace MyNotes.Algorithms

open Library.RecencyList Function List Prod Nat AList

/-- An iterator of `lru` is the identity of its node; `fresh` is the next identity. -/
structure LRUKCache (K V : Type*) where
 capacity : ℕ
 k : ℤ
 lru : List (ℕ × (K × V))
 cache : Index K
 history : AList fun _ : K => ℤ
 fresh : ℕ

namespace LRUKCache

inductive Fault where
 | emptyList
 | invalidIterator (id : ℕ)

inductive Operation (K V : Type*) where
 | get (key : K)
 | put (key : K) (value : V)

variable {K V : Type*}

def Operation.key : Operation K V → K
 | .get key => key
 | .put key _ => key

def new (capacity : ℕ) (k : ℤ) : LRUKCache K V := ⟨capacity, k, [], ∅, ∅, 0⟩

def through {α : Type*} (id : ℕ) : Option α → Except Fault α
 | some result => .ok result
 | none => .error (.invalidIterator id)

/-- `_lru.splice(_lru.begin(), _lru, it->second)` -/
def splice (self : LRUKCache K V) (id : ℕ) : Except Fault (LRUKCache K V) :=
 (through id (toFront? self.lru id)).map fun lru => { self with lru }

/-- `it->second->second = value` -/
def assign (self : LRUKCache K V) (id : ℕ) (value : V) : Except Fault (LRUKCache K V) :=
 (through id (modify? (fun entry => (entry.1, value)) self.lru id)).map fun lru =>
  { self with lru }

variable [DecidableEq K]

def evict (self : LRUKCache K V) : Except Fault (LRUKCache K V) :=
 match self.lru.getLast? with
 | none => .error .emptyList
 | some (_, lruKey, _) =>
  .ok { self with cache := self.cache.erase lruKey, lru := self.lru.dropLast }

/-- A key that is not cached is recorded, and enters the cache when its count is `k`. -/
def record (self : LRUKCache K V) (key : K) (value : V) : LRUKCache K V :=
 let history := self.history.insert key 1
 if (history.lookup key).getD 0 = self.k then
  { self with
   lru := (self.fresh, key, value) :: self.lru
   cache := self.cache.insert key self.fresh
   history := history.erase key
   fresh := self.fresh + 1 }
 else { self with history }

def put (self : LRUKCache K V) (key : K) (value : V) : Except Fault (LRUKCache K V) :=
 match self.cache.lookup key with
 | some id => (self.splice id).bind fun self => self.assign id value
 | none =>
  (if self.cache.keys.length ≥ self.capacity then self.evict else .ok self).map
   fun self => self.record key value

def get [Inhabited V] (self : LRUKCache K V) (key : K) : Except Fault (LRUKCache K V × V) :=
 match self.cache.lookup key with
 | none => .ok (self, default)
 | some id =>
  (self.splice id).bind fun self =>
   (through id (self.lru.lookup id)).map fun entry => (self, entry.2)

def apply [Inhabited V] (self : LRUKCache K V) : Operation K V → Except Fault (LRUKCache K V)
 | .get key => (self.get key).map Prod.fst
 | .put key value => self.put key value

/-! ### The description -/

/-- A cache with what the description says of the calls so far: the keys used, the last one
first, how often a key was put since it was last absent from both queues, and the value that
was put last. -/
structure Session (K V : Type*) where
 state : LRUKCache K V
 used : List K
 puts : K → ℕ
 latest : K → Option V

def start (capacity : ℕ) (k : ℤ) : Session K V := ⟨new capacity k, [], fun _ => 0, fun _ => none⟩

def Operation.isPut (key : K) : Operation K V → Bool
 | .get _ => false
 | .put other _ => other = key

namespace Session

/-- The session once the call has led to `state`. -/
def after (session : Session K V) (operation : Operation K V) (state : LRUKCache K V) :
 Session K V where
 state := state
 used := operation.key :: session.used
 puts key :=
  if key ∉ state.cache ∧ key ∉ state.history then 0
  else if operation.isPut key then session.puts key + 1
  else session.puts key
 latest :=
  match operation with
  | .get _ => session.latest
  | .put key value => update session.latest key (some value)

/-- Which keys are cached, how many, and what `get` answers for them. -/
structure Described [Inhabited V] (session : Session K V) : Prop where
 cached : ∀ key, key ∈ session.state.cache ↔ session.state.k ≤ session.puts key
 size : session.state.cache.keys.length ≤ session.state.capacity
 answer : ∀ key ∈ session.state.cache, ∃ next value,
  session.state.get key = .ok (next, value) ∧ session.latest key = some value

/-- A key leaves the cache only when a new key enters a full cache, and then it is the one
whose last use is oldest. -/
def Evicts (session : Session K V) (operation : Operation K V) (next : LRUKCache K V) : Prop :=
 ∀ key ∈ session.state.cache, key ∉ next.cache →
  operation.isPut operation.key ∧
  operation.key ∉ session.state.cache ∧ operation.key ∈ next.cache ∧
  session.state.cache.keys.length = session.state.capacity ∧
  ∀ other ∈ session.state.cache, other ≠ key → Older session.used key other

/-- Throughout the calls the cache is as described. -/
def Follows [Inhabited V] (session : Session K V) : List (Operation K V) → Prop
 | [] => session.Described
 | operation :: rest =>
  session.Described ∧ ∃ next, session.state.apply operation = .ok next ∧
   session.Evicts operation next ∧ Follows (session.after operation next) rest

end Session

/-! ### A key enters at its first put -/

/-- The cache of a `k` of one after the given uses, with the values put last. -/
structure Sound (state : LRUKCache K V) (used : List K) (latest : K → Option V) : Prop where
 k : state.k = 1
 positive : 0 < state.capacity
 indexed : Indexed Prod.fst state.lru state.cache
 fresh : ∀ node ∈ state.lru, node.1 < state.fresh
 recent : Recent used (keysOf Prod.fst state.lru)
 size : state.lru.length ≤ state.capacity
 history : ∀ key, key ∉ state.history
 latest : ∀ node ∈ state.lru, latest node.2.1 = some node.2.2

section Sound

variable {state : LRUKCache K V} {used : List K} {latest : K → Option V} {key : K} {id : ℕ}

theorem start_sound {capacity : ℕ} (positive : 0 < capacity) :
 Sound (new capacity 1 : LRUKCache K V) [] fun _ => none where
 k := rfl
 positive := positive
 indexed := Indexed.empty _
 fresh _ member := by cases member
 recent := List.Pairwise.nil
 size := zero_le _
 history _ := notMem_empty _
 latest _ member := by cases member

variable (sound : Sound state used latest)
include sound

theorem through_lookup (found : state.cache.lookup key = some id) :
 ∃ value, state.lru.lookup id = some (key, value) ∧ latest key = some value ∧
  state.splice id = .ok { state with lru := (id, key, value) :: erase state.lru id } := by
 obtain ⟨⟨itemKey, value⟩, isItem, member, isKey⟩ := sound.indexed.deref found
 dsimp only at isKey
 rw [isKey] at isItem member
 refine ⟨value, isItem, sound.latest _ member, ?_⟩
 unfold splice
 rw [toFront?_of_lookup isItem]
 rfl

theorem Sound.front (found : state.cache.lookup key = some id) {value : V} {after : K → Option V}
 (isLatest : after key = some value) (others : ∀ other, other ≠ key → after other = latest other) :
 Sound { state with lru := (id, key, value) :: erase state.lru id } (key :: used) after := by
 have indexed := sound.indexed.front found (show fst (key, value) = key from rfl)
 obtain ⟨item, -, member, -⟩ := sound.indexed.deref found
 refine ⟨sound.k, sound.positive, indexed, ?_, ?_, ?_, sound.history, ?_⟩
 · intro node present
   rcases mem_cons.mp present with isFront | old
   · rw [isFront]
     exact sound.fresh (id, item) member
   · exact sound.fresh node (mem_erase.mp old).1
 · rw [sound.indexed.keysOf_front found rfl]
   exact sound.recent.use
 · rw [← indexed.length_keys, sound.indexed.length_keys]
   exact sound.size
 · intro node present
   rcases mem_cons.mp present with isFront | old
   · rw [isFront]
     exact isLatest
   · obtain ⟨oldMember, different⟩ := mem_erase.mp old
     rw [others _ fun same => different ((sound.indexed.id_iff_key found oldMember).mpr same)]
     exact sound.latest node oldMember

theorem Sound.evict (full : state.capacity ≤ state.lru.length) :
 ∃ next victim, state.evict = .ok next ∧ Sound next used latest ∧
  next.lru.length < next.capacity ∧ next.cache = state.cache.erase victim ∧
  ∀ other ∈ state.cache, other ≠ victim → Older used victim other := by
 have positive := sound.positive
 have isLength := sound.size
 obtain empty | ⟨init, ⟨id, victim, value⟩, whole⟩ := eq_nil_or_concat state.lru
 · rw [empty, length_nil] at full
   omega
 · rw [concat_eq_append] at whole
   have isLast : state.lru.getLast? = some (id, victim, value) := by
    rw [whole, List.getLast?_concat]
   have isInit : state.lru.dropLast = init := by
    rw [whole, dropLast_concat]
   have indexed := sound.indexed
   have recent := sound.recent
   have keys : keysOf fst state.lru = keysOf fst init ++ [victim] := by
    rw [whole]
    exact Indexed.keysOf_concat fst init (id, victim, value)
   have fewer : ∀ node ∈ init, node ∈ state.lru := fun node member => by
    simp_all
   rw [whole] at indexed isLength
   rw [keys] at recent
   refine ⟨{ state with cache := state.cache.erase victim, lru := init }, victim, ?_,
    ⟨sound.k, sound.positive, indexed.dropLast, ?_, ?_, ?_, sound.history, ?_⟩, ?_, rfl, ?_⟩
   · unfold LRUKCache.evict
     rw [isLast, isInit]
   · exact fun node member => sound.fresh node (fewer node member)
   · exact recent.sublist (sublist_append_left _ _)
   · grind
   · exact fun node member => sound.latest node (fewer node member)
   · grind
   · intro other member different
     rw [← sound.indexed.mem_keysOf, keys] at member
     exact recent.last member different

theorem Sound.record (absent : key ∉ state.cache) (room : state.lru.length < state.capacity)
 (value : V) :
 Sound (state.record key value) (key :: used) (update latest key (some value)) ∧
  (state.record key value).cache = state.cache.insert key state.fresh := by
 have notIn : key ∉ keysOf fst state.lru := fun member =>
  absent (sound.indexed.mem_keysOf.mp member)
 have enters : state.record key value = { state with
  lru := (state.fresh, key, value) :: state.lru
  cache := state.cache.insert key state.fresh
  history := (state.history.insert key 1).erase key
  fresh := state.fresh + 1 } := by
  unfold LRUKCache.record
  dsimp only
  rw [lookup_insert, sound.k]
  exact if_pos rfl
 rw [enters]
 refine ⟨⟨sound.k, sound.positive, ?_, ?_, ?_, room, ?_, ?_⟩, rfl⟩
 · exact sound.indexed.push (key, value) notIn fun node member =>
    Nat.ne_of_lt (sound.fresh node member)
 · intro node present
   rcases mem_cons.mp present with isNew | old
   · rw [isNew]
     exact Nat.lt_succ_self _
   · exact Nat.lt_succ_of_lt (sound.fresh node old)
 · exact sound.recent.push notIn
 · intro other member
   obtain ⟨different, member⟩ := mem_erase.mp member
   rcases (mem_insert _).mp member with same | old
   · exact different same
   · exact sound.history other old
 · intro node present
   rcases mem_cons.mp present with isNew | old
   · rw [isNew]
     exact update_self _ _ _
   · have different : node.2.1 ≠ key := fun same =>
      notIn (mem_map.mpr ⟨node, old, same⟩)
     rw [update_of_ne different]
     exact sound.latest node old

end Sound

variable [Inhabited V] {session : Session K V}

/-- A session whose cache has a `k` of one. -/
structure Session.Counted (session : Session K V) : Prop where
 sound : Sound session.state session.used session.latest
 counted : ∀ key, key ∈ session.state.cache ↔ 1 ≤ session.puts key

section

variable (counted : session.Counted)
include counted

theorem Session.Counted.described : session.Described where
 cached key := by
  rw [counted.counted, counted.sound.k]
  omega
 size := by
  rw [counted.sound.indexed.length_keys]
  exact counted.sound.size
 answer key member := by
  obtain ⟨id, found⟩ := Option.isSome_iff_exists.mp (lookup_isSome.mpr member)
  obtain ⟨value, -, isLatest, spliced⟩ := through_lookup counted.sound found
  refine ⟨{ session.state with lru := (id, key, value) :: erase session.state.lru id }, value,
   ?_, isLatest⟩
  unfold get
  rw [found]
  dsimp only
  rw [spliced]
  dsimp only [Except.bind]
  rw [lookup_cons_self]
  rfl

omit [Inhabited V] in
theorem Session.Counted.after {operation : Operation K V} {next : LRUKCache K V}
 (sound : Sound next (operation.key :: session.used) (session.after operation next).latest)
 (entered : ∀ key ∈ next.cache, key ∈ session.state.cache ∨ operation.isPut key = true) :
 (session.after operation next).Counted := by
 refine ⟨sound, fun key => ?_⟩
 unfold Session.after
 dsimp only
 constructor
 · intro member
   rw [if_neg fun absent => absent.1 member]
   split
   · omega
   · rename_i noPut
     rcases entered key member with old | put
     · exact (counted.counted key).mp old
     · exact absurd put noPut
 · intro positive
   by_contra absent
   rw [if_pos ⟨absent, sound.history key⟩] at positive
   omega

omit [Inhabited V] in
theorem Session.Counted.put_new {key : K} (found : session.state.cache.lookup key = none)
 (value : V) :
 ∃ next, ((if session.state.cache.keys.length ≥ session.state.capacity then
  session.state.evict else .ok session.state).map fun state => state.record key value) =
  .ok next ∧
  session.Evicts (.put key value) next ∧ (session.after (.put key value) next).Counted := by
 have absent := AList.lookup_eq_none.mp found
 rw [counted.sound.indexed.length_keys]
 by_cases full : session.state.capacity ≤ session.state.lru.length
 · obtain ⟨next, victim, evicted, sound, room, cache, oldest⟩ := counted.sound.evict full
   have stillAbsent : key ∉ next.cache := by
    rw [cache]
    exact fun member => absent (AList.mem_erase.mp member).2
   obtain ⟨recorded, enters⟩ := sound.record stillAbsent room value
   rw [if_pos full, evicted]
   refine ⟨_, rfl, ?_, counted.after recorded ?_⟩
   · intro gone member left
     have isVictim : gone = victim := by
      by_contra different
      rw [enters, AList.mem_insert, cache, AList.mem_erase] at left
      exact left (.inr ⟨different, member⟩)
     refine ⟨decide_eq_true rfl, absent, ?_, ?_, ?_⟩
     · rw [enters]
       exact (AList.mem_insert _).mpr (.inl rfl)
     · rw [counted.sound.indexed.length_keys]
       exact le_antisymm counted.sound.size full
     · rw [isVictim]
       exact oldest
   · intro other member
     rw [enters, AList.mem_insert, cache, AList.mem_erase] at member
     rcases member with isKey | old
     · exact .inr (decide_eq_true isKey.symm)
     · exact .inl old.2
 · obtain ⟨recorded, enters⟩ := counted.sound.record absent (not_le.mp full) value
   rw [if_neg full]
   refine ⟨_, rfl, ?_, counted.after recorded ?_⟩
   · intro gone member left
     simp_all
   · intro other member
     rw [enters, AList.mem_insert] at member
     rcases member with isKey | old
     · exact .inr (decide_eq_true isKey.symm)
     · exact .inl old

theorem Session.Counted.step (operation : Operation K V) :
 ∃ next, session.state.apply operation = .ok next ∧ session.Evicts operation next ∧
  (session.after operation next).Counted := by
 cases operation with
 | get key =>
  unfold apply get
  dsimp only
  cases found : session.state.cache.lookup key with
  | none =>
   refine ⟨session.state, rfl, fun _ member gone => absurd member gone,
    counted.after ?_ fun _ member => .inl member⟩
   have absent := counted.sound.indexed.lookup_eq_none.mp found
   have sound := counted.sound
   exact ⟨sound.k, sound.positive, sound.indexed, sound.fresh, sound.recent.skip absent,
    sound.size, sound.history, sound.latest⟩
  | some id =>
   obtain ⟨value, -, isLatest, spliced⟩ := through_lookup counted.sound found
   dsimp only
   rw [spliced]
   dsimp only [Except.bind]
   rw [lookup_cons_self]
   exact ⟨_, rfl, fun _ member gone => absurd member gone,
    counted.after (counted.sound.front found isLatest fun _ _ => rfl)
     fun _ member => .inl member⟩
 | put key value =>
  unfold apply put
  dsimp only
  cases found : session.state.cache.lookup key with
  | some id =>
   obtain ⟨old, -, -, spliced⟩ := through_lookup counted.sound found
   dsimp only
   rw [spliced]
   dsimp only [Except.bind]
   unfold assign
   rw [modify?_front]
   exact ⟨_, rfl, fun _ member gone => absurd member gone,
    counted.after (counted.sound.front found (update_self _ _ _)
     fun _ different => update_of_ne different _ _) fun _ member => .inl member⟩
  | none =>
   exact counted.put_new found value

theorem Session.Counted.follows (operations : List (Operation K V)) :
 session.Follows operations := by
 induction operations generalizing session with
 | nil => exact counted.described
 | cons first rest ih =>
  obtain ⟨next, applied, evicts, kept⟩ := counted.step first
  exact ⟨counted.described, next, applied, evicts, ih kept⟩

end

/-! ### No key enters -/

/-- A session whose cache has a larger `k`: the history queue is all there is. -/
structure Session.Barren (session : Session K V) : Prop where
 k : 1 < session.state.k
 positive : 0 < session.state.capacity
 cache : session.state.cache = ∅
 history : ∀ key, key ∈ session.state.history ↔ 0 < session.puts key

section

variable (barren : session.Barren)
include barren

theorem Session.Barren.described_iff :
 session.Described ↔ ∀ key, (session.puts key : ℤ) < session.state.k := by
 constructor
 · intro described key
   by_contra reached
   have member := (described.cached key).mpr (Int.not_lt.mp reached)
   rw [barren.cache] at member
   exact notMem_empty key member
 · intro below
   refine ⟨fun key => ?_, ?_, fun key member => ?_⟩
   · rw [barren.cache]
     simp_all
   · rw [barren.cache]
     exact zero_le _
   · rw [barren.cache] at member
     exact absurd member (notMem_empty key)

theorem Session.Barren.apply (operation : Operation K V) :
 ∃ next, session.state.apply operation = .ok next ∧ next.k = session.state.k ∧
  next.capacity = session.state.capacity ∧ next.cache = ∅ ∧
  ∀ key, key ∈ next.history ↔ key ∈ session.state.history ∨ operation.isPut key = true := by
 have found : ∀ key, session.state.cache.lookup key = none := fun key => by
  rw [barren.cache]
  exact lookup_empty key
 have room : ¬ session.state.cache.keys.length ≥ session.state.capacity := by
  rw [barren.cache]
  exact not_le.mpr barren.positive
 cases operation with
 | get key =>
  unfold LRUKCache.apply get
  dsimp only
  rw [found]
  refine ⟨session.state, rfl, rfl, rfl, barren.cache, fun other => ?_⟩
  exact ⟨.inl, fun either => either.elim id fun put => absurd put Bool.false_ne_true⟩
 | put key value =>
  unfold LRUKCache.apply put
  dsimp only
  rw [found]
  rw [if_neg room]
  have stays : session.state.record key value =
   { session.state with history := session.state.history.insert key 1 } := by
   unfold record
   dsimp only
   rw [lookup_insert]
   exact if_neg (Int.ne_of_lt barren.k)
  refine ⟨session.state.record key value, rfl, ?_⟩
  rw [stays]
  refine ⟨rfl, rfl, barren.cache, fun other => ?_⟩
  dsimp only [Operation.isPut]
  rw [mem_insert, decide_eq_true_iff, or_comm, eq_comm]

theorem Session.Barren.step (operation : Operation K V) :
 ∃ next, session.state.apply operation = .ok next ∧ session.Evicts operation next ∧
  next.k = session.state.k ∧ (session.after operation next).Barren ∧
  ∀ key, (session.after operation next).puts key =
   session.puts key + (if operation.isPut key then 1 else 0) := by
 obtain ⟨next, applied, k, capacity, cache, history⟩ := barren.apply operation
 have puts : ∀ key, (session.after operation next).puts key =
  session.puts key + (if operation.isPut key then 1 else 0) := by
  intro key
  unfold Session.after
  dsimp only
  by_cases recorded : key ∈ next.history
  · rw [if_neg fun absent => absent.2 recorded]
    split
    · rfl
    · rfl
  · rw [if_pos ⟨by rw [cache]; exact notMem_empty key, recorded⟩]
    rw [history, not_or] at recorded
    have none := (barren.history key).not.mp recorded.1
    rw [if_neg recorded.2]
    omega
 refine ⟨next, applied, fun key member => ?_, k, ⟨?_, ?_, cache, fun key => ?_⟩, puts⟩
 · rw [barren.cache] at member
   exact absurd member (notMem_empty key)
 · exact k ▸ barren.k
 · exact capacity ▸ barren.positive
 · rw [puts, show (session.after operation next).state.history = next.history from rfl, history,
    barren.history]
   split
   · simp_all
   · rename_i noPut
     exact or_iff_left noPut

theorem Session.Barren.follows_iff (operations : List (Operation K V)) :
 session.Follows operations ↔ ∀ key,
  ((session.puts key + operations.countP (·.isPut key) : ℕ) : ℤ) < session.state.k := by
 induction operations generalizing session with
 | nil => exact barren.described_iff
 | cons first rest ih =>
  obtain ⟨next, applied, evicts, k, kept, puts⟩ := barren.step first
  have tail := ih kept
  rw [show (session.after first next).state.k = session.state.k from k] at tail
  have count : ∀ key, (session.after first next).puts key + rest.countP (·.isPut key) =
   session.puts key + (first :: rest).countP (·.isPut key) := by
   intro key
   rw [puts, countP_cons]
   omega
  simp only [count] at tail
  rw [← tail]
  constructor
  · intro ⟨_, other, again, _, follows⟩
    simp_all
  · intro follows
    refine ⟨barren.described_iff.mpr fun key => ?_, next, applied, evicts, follows⟩
    have below := tail.mp follows key
    omega

end

/-! ### When the cache is as described -/

omit [DecidableEq K] [Inhabited V] in
theorem start_barren {capacity : ℕ} {k : ℤ} (positive : 0 < capacity) (large : 1 < k) :
 (start capacity k : Session K V).Barren :=
 ⟨large, positive, rfl, fun key => iff_of_false (notMem_empty key) (not_lt_zero 0)⟩

/-- The cache is as described throughout the calls if and only if its `k` is one or no key is
put `k` times. -/
theorem lruKCache_follows_iff {capacity : ℕ} {k : ℤ} (positive : 0 < capacity) (least : 1 ≤ k)
 (operations : List (Operation K V)) :
 (start capacity k : Session K V).Follows operations ↔
  k = 1 ∨ ∀ key, (operations.countP (·.isPut key) : ℤ) < k := by
 by_cases one : k = 1
 · refine iff_of_true ?_ (.inl one)
   rw [one]
   refine Session.Counted.follows ⟨start_sound positive, fun key => ?_⟩ operations
   exact iff_of_false (AList.notMem_empty key) (Nat.not_succ_le_zero 0)
 · have barren : (start capacity k : Session K V).Barren :=
    start_barren positive (by omega)
   rw [barren.follows_iff operations, or_iff_right one]
   refine forall_congr' fun key => ?_
   rw [show (start capacity k : Session K V).puts key = 0 from rfl, Nat.zero_add]
   rfl

/-- The put of 3 evicts 2, since 1 was used later. -/
theorem lruKCache_follows_iff_eviction :
 (start 2 1 : Session ℕ ℕ).Follows [.put 1 10, .put 2 20, .get 1, .put 3 30, .get 2] :=
 (lruKCache_follows_iff Nat.two_pos (by decide) _).mpr (.inl rfl)

/-- A key is put twice with a `k` of two, and is not cached. -/
theorem second_put_not_cached :
 ¬ (start 1 2 : Session ℕ ℕ).Follows [.put 7 70, .put 7 71] := by
 rw [(start_barren Nat.one_pos (by decide)).follows_iff]
 intro below
 exact absurd (below 7) (by decide)

end LRUKCache

end MyNotes.Algorithms
