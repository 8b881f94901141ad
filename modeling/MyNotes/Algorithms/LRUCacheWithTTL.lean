/-
The LRU cache of the search notes whose entries expire.

Every `Clock::now()` takes the next reading of a clock that does not go back, so time may
pass between any two of them.  `clean_expired` starts again from the back after each entry
that it removes.
-/

import MyNotes.Library.RecencyList
import Mathlib.Tactic.Ring

namespace MyNotes.Algorithms

open Library.RecencyList List Nat

/-- The readings of a clock, and how many of its ticks are a second. -/
structure Clock where
 now : ℕ → ℤ
 monotone : ∀ {i j : ℕ}, i ≤ j → now i ≤ now j
 second : ℤ

structure CacheNode where
 key : ℤ
 value : ℤ
 expireTime : ℤ

/-- An iterator of `cacheList` is the identity of its node; `fresh` is the next identity and
`reading` the number of the next reading of the clock. -/
structure LRUCacheWithTTL where
 capacity : ℕ
 cacheList : List (ℕ × CacheNode)
 cacheMap : Index ℤ
 fresh : ℕ
 reading : ℕ

namespace LRUCacheWithTTL

inductive Fault where
 | emptyList
 | invalidIterator (id : ℕ)
 | endlessLoop

inductive Operation where
 | get (key : ℤ)
 | put (key value ttlSeconds : ℤ)

def Operation.key : Operation → ℤ
 | .get key => key
 | .put key _ _ => key

def new (capacity : ℕ) : LRUCacheWithTTL := ⟨capacity, [], ∅, 0, 0⟩

def through {α : Type} (id : ℕ) : Option α → Except Fault α
 | some result => .ok result
 | none => .error (.invalidIterator id)

def tick (self : LRUCacheWithTTL) : LRUCacheWithTTL := { self with reading := self.reading + 1 }

def splice (self : LRUCacheWithTTL) (id : ℕ) : Except Fault LRUCacheWithTTL :=
 (through id (toFront? self.cacheList id)).map fun cacheList => { self with cacheList }

/-- The entry of an iterator goes from the list and from the map. -/
def remove (self : LRUCacheWithTTL) (id : ℕ) (key : ℤ) : Except Fault LRUCacheWithTTL :=
 (through id (erase? self.cacheList id)).map fun cacheList =>
  { self with cacheList, cacheMap := self.cacheMap.erase key }

variable (clock : Clock)

/-- The reverse iterator is `position` nodes away from the end of the list. -/
def cleanExpiredFrom : ℕ → LRUCacheWithTTL → ℕ → Except Fault LRUCacheWithTTL
 | 0, _, _ => .error .endlessLoop
 | rounds + 1, self, position =>
  match self.cacheList.reverse[position]? with
  | none => .ok self
  | some (id, node) =>
   if clock.now self.reading ≥ node.expireTime then
    (self.tick.remove id node.key).bind fun self => cleanExpiredFrom rounds self 0
   else cleanExpiredFrom rounds self.tick (position + 1)

section

variable (self : LRUCacheWithTTL)

def cleanExpired : Except Fault LRUCacheWithTTL :=
 cleanExpiredFrom clock ((self.cacheList.length + 1) * (self.cacheList.length + 1)) self 0

def get (key : ℤ) : Except Fault (LRUCacheWithTTL × ℤ) :=
 match self.cacheMap.lookup key with
 | none => .ok (self, -1)
 | some id =>
  (through id (self.cacheList.lookup id)).bind fun node =>
   if clock.now self.reading ≥ node.expireTime then
    (self.tick.remove id key).map fun self => (self, -1)
   else
    (self.tick.splice id).bind fun self =>
     (through id (self.cacheList.lookup id)).map fun node => (self, node.value)

def evict : Except Fault LRUCacheWithTTL :=
 match self.cacheList.getLast? with
 | none => .error .emptyList
 | some (_, back) =>
  .ok { self with
   cacheMap := self.cacheMap.erase back.key
   cacheList := self.cacheList.dropLast }

def emplace (node : CacheNode) : LRUCacheWithTTL :=
 { self with
  cacheList := (self.fresh, node) :: self.cacheList
  cacheMap := self.cacheMap.insert node.key self.fresh
  fresh := self.fresh + 1 }

def put (key value ttlSeconds : ℤ) : Except Fault LRUCacheWithTTL :=
 let expire := clock.now self.reading + ttlSeconds * clock.second
 match self.cacheMap.lookup key with
 | some id =>
  (through id (modify? (fun node => { node with value, expireTime := expire })
   self.cacheList id)).bind fun cacheList => splice { self.tick with cacheList } id
 | none =>
  (self.tick.cleanExpired clock).bind fun self =>
   (if self.cacheList.length ≥ self.capacity then self.evict else .ok self).map
    fun self => self.emplace ⟨key, value, expire⟩

def apply : Operation → Except Fault LRUCacheWithTTL
 | .get key => (self.get clock key).map Prod.fst
 | .put key value ttlSeconds => self.put clock key value ttlSeconds

end

/-! ### An expiring LRU map -/

/-- A cache with the keys used so far, the last one first, and the value and the expiry of the
latest put on each key, unless the key has been evicted since. -/
structure Session where
 state : LRUCacheWithTTL
 used : List ℤ
 latest : ℤ → Option (ℤ × ℤ)

def start (capacity : ℕ) : Session := ⟨new capacity, [], fun _ => none⟩

/-- The key has left the cache though its entry is not expired by the last reading. -/
def Evicted (before after : LRUCacheWithTTL) (key : ℤ) : Prop :=
 ∃ node ∈ before.cacheList, node.2.key = key ∧ key ∉ keysOf CacheNode.key after.cacheList ∧
  clock.now (after.reading - 1) < node.2.expireTime

instance (before after : LRUCacheWithTTL) (key : ℤ) : Decidable (Evicted clock before after key) :=
 inferInstanceAs (Decidable (∃ node ∈ before.cacheList, _))

/-- What `clean_expired` has to do from the reading `start` on: the entries expired by then go,
those that go are expired by the time of a reading, and the others keep their order. -/
structure Cleaned (start : ℕ) (before after : LRUCacheWithTTL) : Prop where
 sublist : after.cacheList.Sublist before.cacheList
 kept : ∀ node ∈ after.cacheList, clock.now start < node.2.expireTime
 removed : ∀ node ∈ before.cacheList, node ∉ after.cacheList → ∃ reading, start ≤ reading ∧
  reading < after.reading ∧ node.2.expireTime ≤ clock.now reading

namespace Session

/-- The session once the call has led to `state`. -/
def after (session : Session) (operation : Operation) (state : LRUCacheWithTTL) : Session where
 state := state
 used := operation.key :: session.used
 latest key :=
  match operation with
  | .put written value ttlSeconds =>
   if key = written then
    some (value, clock.now session.state.reading + ttlSeconds * clock.second)
   else if Evicted clock session.state state key then none
   else session.latest key
  | .get _ => if Evicted clock session.state state key then none else session.latest key

/-- The value of the latest put, if the entry is neither evicted nor expired. -/
def answer (session : Session) (key : ℤ) : ℤ :=
 match session.latest key with
 | some (value, expire) => if clock.now session.state.reading < expire then value else -1
 | none => -1

/-- The list and the map, what `get` answers, and what a cleaning does at any time. -/
structure Described (session : Session) : Prop where
 bijection : Indexed CacheNode.key session.state.cacheList session.state.cacheMap
 size : session.state.cacheList.length ≤ session.state.capacity
 get : ∀ key, ∃ next, session.state.get clock key = .ok (next, session.answer clock key)
 clean : ∀ reading, ∃ next,
  { session.state with reading }.cleanExpired clock = .ok next ∧
   Cleaned clock reading session.state next

/-- An entry that is not expired goes only when a new key is put, when all `capacity` entries
were unexpired as the cleaning began, and then it is the one whose last use is oldest. -/
def Evicts (session : Session) (operation : Operation) (next : LRUCacheWithTTL) : Prop :=
 ∀ key, Evicted clock session.state next key →
  (∃ value ttlSeconds, operation = .put operation.key value ttlSeconds) ∧
  operation.key ∉ keysOf CacheNode.key session.state.cacheList ∧
  session.state.cacheList.length = session.state.capacity ∧
  (∀ node ∈ session.state.cacheList, clock.now (session.state.reading + 1) < node.2.expireTime) ∧
  ∀ other ∈ keysOf CacheNode.key session.state.cacheList, other ≠ key →
   Older session.used key other

/-- Throughout the calls the cache is an expiring LRU map. -/
def Refines (session : Session) : List Operation → Prop
 | [] => session.Described clock
 | operation :: rest =>
  session.Described clock ∧ ∃ next, session.state.apply clock operation = .ok next ∧
   session.Evicts clock operation next ∧ Refines (session.after clock operation next) rest

end Session

/-! ### The cleaning -/

/-- Entries have gone, and nothing else has changed. -/
structure Trimmed (before after : LRUCacheWithTTL) : Prop where
 sublist : after.cacheList.Sublist before.cacheList
 indexed : Indexed CacheNode.key after.cacheList after.cacheMap
 capacity : after.capacity = before.capacity
 fresh : after.fresh = before.fresh
 later : before.reading ≤ after.reading

theorem Trimmed.trans {before middle after : LRUCacheWithTTL} (first : Trimmed before middle)
 (second : Trimmed middle after) : Trimmed before after where
 sublist := second.sublist.trans first.sublist
 indexed := second.indexed
 capacity := second.capacity.trans first.capacity
 fresh := second.fresh.trans first.fresh
 later := first.later.trans second.later

section Cleaning

variable {clock} {self : LRUCacheWithTTL} {key : ℤ} {id : ℕ}

theorem remove_spec (self : LRUCacheWithTTL)
 (indexed : Indexed CacheNode.key self.cacheList self.cacheMap)
 (found : self.cacheMap.lookup key = some id) :
 self.remove id key = .ok { self with
  cacheList := erase self.cacheList id
  cacheMap := self.cacheMap.erase key } := by
 obtain ⟨item, isItem, -, -⟩ := indexed.deref found
 unfold remove
 rw [erase?_of_lookup isItem]
 rfl

theorem rounds_left {shorter length rounds position : ℕ} (less : shorter < length)
 (inside : position ≤ length) (enough : (length + 1) * (length + 1) ≤ rounds + 1 + position) :
 (shorter + 1) * (shorter + 1) ≤ rounds := by
 have smaller : (shorter + 1) * (shorter + 1) ≤ length * length := Nat.mul_le_mul less less
 have square : (length + 1) * (length + 1) = length * length + 2 * length + 1 := by ring
 omega

theorem cleanExpiredFrom_spec {start : ℕ} (rounds position : ℕ)
 (enough : (self.cacheList.length + 1) * (self.cacheList.length + 1) ≤ rounds + position)
 (inside : position ≤ self.cacheList.length)
 (indexed : Indexed CacheNode.key self.cacheList self.cacheMap)
 (began : start ≤ self.reading)
 (passed : ∀ node ∈ self.cacheList.reverse.take position,
  clock.now start < node.2.expireTime) :
 ∃ after, cleanExpiredFrom clock rounds self position = .ok after ∧
  Cleaned clock start self after ∧ Trimmed self after := by
 induction rounds generalizing self position with
 | zero =>
  have room := le_mul_self (self.cacheList.length + 1)
  omega
 | succ rounds ih =>
  unfold cleanExpiredFrom
  cases here : self.cacheList.reverse[position]? with
  | none =>
   refine ⟨self, rfl, ⟨List.Sublist.refl _, ?_, fun node one other => absurd one other⟩,
    List.Sublist.refl _, indexed, rfl, rfl, le_refl _⟩
   intro node member
   have beyond := List.getElem?_eq_none_iff.mp here
   grind
  | some entry =>
   obtain ⟨id, node⟩ := entry
   have below := (List.getElem?_eq_some_iff.mp here).1
   rw [length_reverse] at below
   have member : (id, node) ∈ self.cacheList :=
    mem_reverse.mp (mem_of_getElem? here)
   have found : self.cacheMap.lookup node.key = some id := indexed.lookup_key member
   dsimp only
   by_cases expired : clock.now self.reading ≥ node.expireTime
   · rw [if_pos expired, remove_spec self.tick indexed found]
     have shorter : (erase self.cacheList id).length < self.cacheList.length :=
      length_filter_lt_length_iff_exists.mpr ⟨(id, node), member, by
       simp⟩
     obtain ⟨after, done, cleaned, trimmed⟩ :=
      @ih { self.tick with
       cacheList := erase self.cacheList id
       cacheMap := self.cacheMap.erase node.key } 0
       (rounds_left shorter inside enough) (zero_le _) (indexed.erase found)
       (le_succ_of_le began) fun _ none => absurd none not_mem_nil
     have later : self.reading + 1 ≤ after.reading := trimmed.later
     have sublist := cleaned.sublist.trans filter_sublist
     refine ⟨after, done, ⟨sublist, cleaned.kept, ?_⟩,
      sublist, trimmed.indexed, trimmed.capacity, trimmed.fresh, le_of_succ_le later⟩
     intro other present gone
     by_cases same : other.1 = id
     · refine ⟨self.reading, began, later, ?_⟩
       rw [indexed.item_unique (show (id, other.2) ∈ self.cacheList from same ▸ present)
        member]
       exact expired
     · exact cleaned.removed other (mem_erase.mpr ⟨present, same⟩) gone
   · rw [if_neg expired]
     have fresh := lt_of_le_of_lt (clock.monotone began) (not_le.mp expired)
     obtain ⟨after, done, cleaned, trimmed⟩ := @ih self.tick (position + 1)
      (show _ ≤ rounds + (position + 1) by dsimp only [tick]; omega) below indexed
      (le_succ_of_le began) (by
       intro other member
       dsimp only [tick] at member
       rw [take_add_one, here, mem_append] at member
       rcases member with before | isHere
       · exact passed other before
       · grind)
     exact ⟨after, done, ⟨cleaned.sublist, cleaned.kept, cleaned.removed⟩,
      trimmed.sublist, trimmed.indexed, trimmed.capacity, trimmed.fresh,
      le_of_succ_le trimmed.later⟩

theorem cleanExpired_spec (clock : Clock) (self : LRUCacheWithTTL)
 (indexed : Indexed CacheNode.key self.cacheList self.cacheMap) :
 ∃ after, self.cleanExpired clock = .ok after ∧
  Cleaned clock self.reading self after ∧ Trimmed self after :=
 cleanExpiredFrom_spec _ 0 (le_refl _) (zero_le _) indexed (le_refl _)
  fun _ none => absurd none not_mem_nil

end Cleaning

/-! ### The calls -/

structure Sound (session : Session) : Prop where
 positive : 0 < session.state.capacity
 indexed : Indexed CacheNode.key session.state.cacheList session.state.cacheMap
 fresh : ∀ node ∈ session.state.cacheList, node.1 < session.state.fresh
 recent : Recent session.used (keysOf CacheNode.key session.state.cacheList)
 size : session.state.cacheList.length ≤ session.state.capacity
 present : ∀ node ∈ session.state.cacheList,
  session.latest node.2.key = some (node.2.value, node.2.expireTime)
 absent : ∀ key value expire, session.latest key = some (value, expire) →
  key ∉ keysOf CacheNode.key session.state.cacheList →
  expire ≤ clock.now session.state.reading

variable {clock} {session : Session}

theorem start_sound {capacity : ℕ} (positive : 0 < capacity) :
 Sound clock (start capacity) where
 positive := positive
 indexed := Indexed.empty _
 fresh _ member := by cases member
 recent := List.Pairwise.nil
 size := zero_le _
 present _ member := by cases member
 absent _ _ _ none := by cases none

theorem Sound.get (sound : Sound clock session) (key : ℤ) :
 (session.state.cacheMap.lookup key = none ∧
  session.state.get clock key = .ok (session.state, -1)) ∨
 ∃ id item, session.state.cacheMap.lookup key = some id ∧
  (id, item) ∈ session.state.cacheList ∧ item.key = key ∧
  ((item.expireTime ≤ clock.now session.state.reading ∧
   session.state.get clock key = .ok ({ session.state.tick with
    cacheList := erase session.state.cacheList id
    cacheMap := session.state.cacheMap.erase key }, -1)) ∨
  (clock.now session.state.reading < item.expireTime ∧
   session.state.get clock key = .ok ({ session.state.tick with
    cacheList := (id, item) :: erase session.state.cacheList id }, item.value))) := by
 unfold LRUCacheWithTTL.get
 cases found : session.state.cacheMap.lookup key with
 | none => exact .inl ⟨rfl, rfl⟩
 | some id =>
  obtain ⟨item, isItem, member, isKey⟩ := sound.indexed.deref found
  refine .inr ⟨id, item, rfl, member, isKey, ?_⟩
  dsimp only
  rw [isItem]
  dsimp only [through, Except.bind]
  by_cases expired : clock.now session.state.reading ≥ item.expireTime
  · refine .inl ⟨expired, ?_⟩
    rw [if_pos expired, remove_spec session.state.tick sound.indexed found]
    rfl
  · refine .inr ⟨not_le.mp expired, ?_⟩
    have spliced : session.state.tick.splice id = .ok { session.state.tick with
     cacheList := (id, item) :: erase session.state.cacheList id } := by
     unfold splice
     rw [show session.state.tick.cacheList = session.state.cacheList from rfl,
      toFront?_of_lookup isItem]
     rfl
    rw [if_neg expired, spliced]
    dsimp only [Except.bind]
    rw [lookup_cons_self]
    rfl

theorem Sound.described (sound : Sound clock session) :
 session.Described clock where
 bijection := sound.indexed
 size := sound.size
 get key := by
  unfold Session.answer
  rcases sound.get key with ⟨found, got⟩ | ⟨id, item, found, member, isKey, got⟩
  · have gone := sound.indexed.lookup_eq_none.mp found
    refine ⟨session.state, got.trans ?_⟩
    split
    · rename_i value expire isLatest
      rw [if_neg (not_lt.mpr (sound.absent key value expire isLatest gone))]
    · rfl
  · have isLatest := sound.present _ member
    rw [isKey] at isLatest
    rw [isLatest]
    rcases got with ⟨expired, got⟩ | ⟨unexpired, got⟩
    · simp_all
    · simp_all
 clean reading := by
  obtain ⟨after, done, cleaned, -⟩ :=
   cleanExpired_spec clock { session.state with reading } sound.indexed
  exact ⟨after, done, cleaned.sublist, cleaned.kept, cleaned.removed⟩

/-! ### What a call leaves -/

variable {operation : Operation} {next : LRUCacheWithTTL} {key : ℤ}

theorem not_evicted (stays : ∀ key ∈ keysOf CacheNode.key session.state.cacheList,
 key ∈ keysOf CacheNode.key next.cacheList) : ¬ Evicted clock session.state next key := by
 intro ⟨node, member, isKey, gone, _⟩
 exact gone (isKey ▸ stays _ (mem_map_of_mem member))

theorem latest_kept (notWritten : ∀ value ttlSeconds, operation ≠ .put key value ttlSeconds)
 (stays : key ∈ keysOf CacheNode.key next.cacheList) :
 (session.after clock operation next).latest key = session.latest key := by
 have notEvicted : ¬ Evicted clock session.state next key := fun ⟨_, _, _, gone, _⟩ => gone stays
 unfold Session.after
 cases operation with
 | get other => exact if_neg notEvicted
 | put other value ttlSeconds =>
  dsimp only
  have different : key ≠ other := fun same => notWritten value ttlSeconds (by rw [same])
  rw [if_neg different, if_neg notEvicted]

section

variable (sound : Sound clock session)
include sound

theorem Sound.after (capacity : next.capacity = session.state.capacity)
 (indexed : Indexed CacheNode.key next.cacheList next.cacheMap)
 (fresh : ∀ node ∈ next.cacheList, node.1 < next.fresh)
 (recent : Recent (operation.key :: session.used) (keysOf CacheNode.key next.cacheList))
 (size : next.cacheList.length ≤ session.state.capacity)
 (later : session.state.reading ≤ next.reading)
 (present : ∀ node ∈ next.cacheList, (session.after clock operation next).latest node.2.key =
  some (node.2.value, node.2.expireTime))
 (written : ∀ key value ttlSeconds, operation = .put key value ttlSeconds →
  key ∈ keysOf CacheNode.key next.cacheList) :
 Sound clock (session.after clock operation next) where
 positive := capacity.symm ▸ sound.positive
 indexed := indexed
 fresh := fresh
 recent := recent
 size := capacity.symm ▸ size
 present := present
 absent key value expire isLatest gone := by
  have old : (if Evicted clock session.state next key then none else session.latest key) =
   some (value, expire) := by
   cases operation with
   | get other => exact isLatest
   | put other otherValue ttlSeconds =>
    refine (if_neg fun same => ?_).symm.trans isLatest
    exact gone (same ▸ written other otherValue ttlSeconds rfl)
  by_cases evicted : Evicted clock session.state next key
  · rw [if_pos evicted] at old
    cases old
  · rw [if_neg evicted] at old
    by_cases wasThere : key ∈ keysOf CacheNode.key session.state.cacheList
    · obtain ⟨node, member, isKey⟩ := mem_map.mp wasThere
      have isNode := sound.present node member
      rw [isKey, old] at isNode
      have expired : ¬ clock.now (next.reading - 1) < node.2.expireTime := fun unexpired =>
       evicted ⟨node, member, isKey, gone, unexpired⟩
      rw [(Prod.mk.inj (Option.some.inj isNode)).2]
      exact (not_lt.mp expired).trans (clock.monotone (sub_le _ _))
    · exact (sound.absent key value expire old wasThere).trans (clock.monotone later)

theorem Sound.front {id : ℕ} {item : CacheNode}
 (found : session.state.cacheMap.lookup operation.key = some id) (isKey : item.key = operation.key)
 (isLatest : ∀ next : LRUCacheWithTTL, operation.key ∈ keysOf CacheNode.key next.cacheList →
  (session.after clock operation next).latest operation.key =
   some (item.value, item.expireTime)) :
 session.Evicts clock operation { session.state.tick with
  cacheList := (id, item) :: erase session.state.cacheList id } ∧
  Sound clock (session.after clock operation { session.state.tick with
   cacheList := (id, item) :: erase session.state.cacheList id }) := by
 have indexed := sound.indexed.front found isKey
 have keys := sound.indexed.keysOf_front found isKey
 have isFirst : operation.key ∈
  keysOf CacheNode.key ((id, item) :: erase session.state.cacheList id) := by
  rw [keys]
  exact mem_cons_self
 obtain ⟨old, -, oldMember, oldKey⟩ := sound.indexed.deref found
 constructor
 · intro key evicted
   refine absurd evicted (not_evicted fun other member => ?_)
   grind
 · refine sound.after rfl indexed ?_ ?_ ?_ (le_succ _) ?_ ?_
   · intro node member
     rcases mem_cons.mp member with isFront | other
     · rw [isFront]
       exact sound.fresh (id, old) oldMember
     · exact sound.fresh node (mem_erase.mp other).1
   · rw [keys]
     exact sound.recent.use
   · rw [← indexed.length_keys, sound.indexed.length_keys]
     exact sound.size
   · intro node member
     rcases mem_cons.mp member with isFront | other
     · simp_all
     · obtain ⟨oldNode, different⟩ := mem_erase.mp other
       rw [latest_kept _ (mem_map_of_mem member)]
       · exact sound.present node oldNode
       · intro value ttlSeconds isPut
         refine different ((sound.indexed.id_iff_key found oldNode).mpr ?_)
         rw [isPut]
         rfl
   · intro key value ttlSeconds isPut
     rw [isPut] at isFirst
     exact isFirst

theorem Sound.get_step (key : ℤ) :
 ∃ next, session.state.apply clock (.get key) = .ok next ∧
  session.Evicts clock (.get key) next ∧
  Sound clock (session.after clock (.get key) next) := by
 unfold apply
 dsimp only
 rcases sound.get key with ⟨found, got⟩ | ⟨id, item, found, member, isKey, got⟩
 · have gone := sound.indexed.lookup_eq_none.mp found
   rw [got]
   refine ⟨session.state, rfl, fun other evicted => ?_, ?_⟩
   · exact absurd evicted (not_evicted fun _ stays => stays)
   · refine sound.after rfl sound.indexed sound.fresh (sound.recent.skip gone) sound.size
      (le_refl _) ?_ ?_
     · intro node member
       rw [latest_kept (fun _ _ => Operation.noConfusion) (mem_map_of_mem member)]
       exact sound.present node member
     · intro _ _ _ isPut
       cases isPut
 rcases got with ⟨expired, got⟩ | ⟨unexpired, got⟩
 · rw [got]
   have keys := sound.indexed.keysOf_erase found
   have gone : key ∉ keysOf CacheNode.key (erase session.state.cacheList id) := by
    rw [keys]
    exact fun again => of_decide_eq_true (mem_filter.mp again).2 rfl
   refine ⟨_, rfl, fun other ⟨node, present, isOther, left, unexpired⟩ => ?_, ?_⟩
   · rw [keys, mem_filter, decide_eq_true_iff, not_and_not_right] at left
     have same := left (isOther ▸ mem_map_of_mem present)
     have isNode := sound.indexed.node_unique present member
      (isOther.trans (same.trans isKey.symm))
     rw [isNode] at unexpired
     exact absurd expired (not_le.mpr unexpired)
   · refine sound.after rfl (sound.indexed.erase found) ?_ ?_ ?_ (le_succ _) ?_ ?_
     · exact fun node stays => sound.fresh node (mem_erase.mp stays).1
     · refine Recent.skip (sound.recent.sublist ?_) gone
       rw [keys]
       exact filter_sublist
     · exact (length_filter_le _ _).trans sound.size
     · intro node stays
       rw [latest_kept (fun _ _ => Operation.noConfusion) (mem_map_of_mem stays)]
       exact sound.present node (mem_erase.mp stays).1
     · intro _ _ _ isPut
       cases isPut
 · rw [got]
   refine ⟨_, rfl, sound.front found isKey fun next stays => ?_⟩
   have isLatest := sound.present _ member
   rw [isKey] at isLatest
   rw [latest_kept (fun _ _ => Operation.noConfusion) stays]
   exact isLatest

theorem Sound.emplace {trimmed : LRUCacheWithTTL} (left : Trimmed session.state trimmed)
 {value ttlSeconds : ℤ} (absent : key ∉ keysOf CacheNode.key session.state.cacheList)
 (room : trimmed.cacheList.length < session.state.capacity) :
 Sound clock (session.after clock (.put key value ttlSeconds) (trimmed.emplace
  ⟨key, value, clock.now session.state.reading + ttlSeconds * clock.second⟩)) := by
 have stillAbsent : key ∉ keysOf CacheNode.key trimmed.cacheList := fun again =>
  absent ((left.sublist.map _).subset again)
 have below : ∀ node ∈ trimmed.cacheList, node.1 < trimmed.fresh := fun node member =>
  left.fresh.symm ▸ sound.fresh node (left.sublist.subset member)
 refine sound.after left.capacity ?_ ?_ ?_ room left.later ?_ ?_
 · exact left.indexed.push _ stillAbsent fun node member => Nat.ne_of_lt (below node member)
 · intro node member
   rcases mem_cons.mp member with isNew | old
   · rw [isNew]
     exact Nat.lt_succ_self _
   · exact Nat.lt_succ_of_lt (below node old)
 · exact (sound.recent.sublist (left.sublist.map _)).push stillAbsent
 · intro node member
   rcases mem_cons.mp member with isNew | old
   · rw [isNew]
     exact if_pos rfl
   · have oldKey : node.2.key ∈ keysOf CacheNode.key trimmed.cacheList :=
      mem_map_of_mem old
     rw [latest_kept _ (mem_map_of_mem member)]
     · exact sound.present node (left.sublist.subset old)
     · grind
 · intro other _ _ isPut
   cases isPut
   exact mem_cons_self

end

theorem evict_spec {self : LRUCacheWithTTL}
 (indexed : Indexed CacheNode.key self.cacheList self.cacheMap)
 (positive : 0 < self.cacheList.length) :
 ∃ next init back, self.evict = .ok next ∧ self.cacheList = init ++ [back] ∧
  next.cacheList = init ∧ Trimmed self next := by
 obtain empty | ⟨init, back, whole⟩ := eq_nil_or_concat self.cacheList
 · simp_all
 · rw [concat_eq_append] at whole
   have isLast : self.cacheList.getLast? = some back := by
    rw [whole, getLast?_concat]
   have isInit : self.cacheList.dropLast = init := by
    rw [whole, dropLast_concat]
   rw [whole] at indexed
   refine ⟨{ self with cacheMap := self.cacheMap.erase back.2.key, cacheList := init }, init, back,
    ?_, whole, rfl, ?_, indexed.dropLast, rfl, rfl, le_refl _⟩
   · unfold evict
     rw [isLast, isInit]
   · simp_all

theorem Sound.put_step (sound : Sound clock session) (key value ttlSeconds : ℤ) :
 ∃ next, session.state.apply clock (.put key value ttlSeconds) = .ok next ∧
  session.Evicts clock (.put key value ttlSeconds) next ∧
  Sound clock (session.after clock (.put key value ttlSeconds) next) := by
 unfold apply put
 dsimp only
 cases found : session.state.cacheMap.lookup key with
 | some id =>
  obtain ⟨item, isItem, -, isKey⟩ := sound.indexed.deref found
  dsimp only
  rw [modify?_of_lookup _ isItem]
  dsimp only [through, Except.bind]
  unfold splice
  rw [toFront?_modify _ isItem]
  exact ⟨_, rfl, sound.front found isKey
   fun _ _ => if_pos rfl⟩
 | none =>
  have absent := sound.indexed.lookup_eq_none.mp found
  obtain ⟨cleaned, done, isCleaned, trimmed⟩ :=
   cleanExpired_spec clock session.state.tick sound.indexed
  have fromTick : Trimmed session.state session.state.tick :=
   ⟨List.Sublist.refl _, sound.indexed, rfl, rfl, le_succ _⟩
  have left := fromTick.trans trimmed
  rw [done]
  dsimp only [Except.bind]
  rw [left.capacity]
  by_cases full : cleaned.cacheList.length ≥ session.state.capacity
  · -- Nothing was expired, for the list is as long as it can be.
    have whole : cleaned.cacheList = session.state.cacheList :=
     left.sublist.eq_of_length_le (sound.size.trans full)
    obtain ⟨next, init, back, evicted, isList, isInit, fewer⟩ :=
     evict_spec left.indexed (lt_of_lt_of_le sound.positive full)
    rw [whole] at isList
    have size := sound.size
    rw [isList, length_append, length_singleton] at size
    rw [if_pos full, evicted]
    refine ⟨_, rfl, fun gone ⟨node, present, isGone, notIn, unexpired⟩ => ?_,
     sound.emplace (left.trans fewer) absent (isInit ▸ size)⟩
    have keys : keysOf CacheNode.key session.state.cacheList =
     keysOf CacheNode.key init ++ [back.2.key] := by
     rw [isList]
     exact Indexed.keysOf_concat _ _ _
    have isBack : gone = back.2.key := by
     have was : gone ∈ keysOf CacheNode.key session.state.cacheList :=
      isGone ▸ mem_map_of_mem present
     rw [keys, mem_append, mem_singleton] at was
     refine was.resolve_left fun inside => notIn (mem_cons_of_mem _ ?_)
     rw [isInit]
     exact inside
    refine ⟨⟨value, ttlSeconds, rfl⟩, absent, ?_, ?_, fun other member different => ?_⟩
    · grind
    · intro node member
      exact isCleaned.kept node (whole.symm ▸ member)
    · have recent := sound.recent
      rw [keys] at recent member
      rw [isBack] at different ⊢
      exact recent.last member different
  · rw [if_neg full]
    refine ⟨_, rfl, fun gone ⟨node, present, isGone, notIn, unexpired⟩ => ?_,
     sound.emplace left absent (not_le.mp full)⟩
    have removed : node ∉ cleaned.cacheList := fun stays =>
     notIn (mem_cons_of_mem _ (isGone ▸ mem_map_of_mem stays))
    obtain ⟨reading, -, earlier, expired⟩ := isCleaned.removed node present removed
    exact absurd (expired.trans (clock.monotone (le_sub_one_of_lt earlier)))
     (not_le.mpr unexpired)

theorem Sound.step (sound : Sound clock session) (operation : Operation) :
 ∃ next, session.state.apply clock operation = .ok next ∧
  session.Evicts clock operation next ∧ Sound clock (session.after clock operation next) := by
 cases operation with
 | get key => exact sound.get_step key
 | put key value ttlSeconds => exact sound.put_step key value ttlSeconds

theorem Sound.refines (sound : Sound clock session) (operations : List Operation) :
 session.Refines clock operations := by
 induction operations generalizing session with
 | nil => exact sound.described
 | cons first rest ih =>
  obtain ⟨next, applied, evicts, kept⟩ := sound.step first
  exact ⟨sound.described, next, applied, evicts, ih kept⟩

/-- Whatever the clock reads and whatever the calls are, the cache is an expiring LRU map. -/
theorem lruCacheWithTTL_refines (clock : Clock) {capacity : ℕ} (positive : 0 < capacity)
 (operations : List Operation) : (start capacity).Refines clock operations :=
 (start_sound positive).refines operations

theorem lruCacheWithTTL_refines_one :
 (start 1).Refines ⟨fun reading => reading, Int.ofNat_le.mpr, 1⟩
  [.put 1 10 0, .get 2, .put 2 20 5, .get 2] :=
 lruCacheWithTTL_refines _ Nat.one_pos _

end LRUCacheWithTTL

end MyNotes.Algorithms
