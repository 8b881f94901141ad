/-
The victim of `Evict` against the accesses themselves.

The replacer stores no distance.  A young frame stands where its first access put
it, and a mature frame where `upper_bound` finds the place of its `k`-th last
access, so the order of the two lists is the order of the distances.
-/

import MyNotes.Library.SortedCut
import MyNotes.Cmu15445.LruKReplacer
import Mathlib.Data.ENat.Basic
import Mathlib.Data.List.Induction

namespace MyNotes.Cmu15445.LRUKReplacer

open Library.SortedCut Function List Option Nat

/-! ### Histories -/

inductive Call where
 | recordAccess (frameId : FrameId)
 | setEvictable (frameId : FrameId) (setEvictable : Bool)
 | remove (frameId : FrameId)
 | evict

/-- A replacer with the timestamps of all accesses to each frame since the frame
was last inserted. -/
structure Recorded where
 replacer : LRUKReplacer
 clock : ℕ
 accesses : FrameId → List ℕ

namespace Recorded

def start (numFrames k : ℕ) : Recorded := ⟨.new numFrames k, 0, fun _ => []⟩

def forget (self : Recorded) (frameId : FrameId) (replacer : LRUKReplacer) : Recorded :=
 { self with replacer := replacer, accesses := update self.accesses frameId [] }

def call (self : Recorded) : Call → Recorded
 | .recordAccess frameId =>
  match self.replacer.recordAccess frameId with
  | none => self
  | some replacer =>
   { replacer := replacer
     clock := self.clock + 1
     accesses := update self.accesses frameId
      (self.accesses frameId ++ [self.clock + 1]) }
 | .setEvictable frameId flag =>
  match self.replacer.setEvictable frameId flag with
  | none => self
  | some replacer => { self with replacer := replacer }
 | .remove frameId =>
  match self.replacer.remove frameId with
  | none => self
  | some replacer => self.forget frameId replacer
 | .evict =>
  match self.replacer.evict with
  | none => self
  | some (frameId, replacer) => self.forget frameId replacer

end Recorded

def firstAccess (stamps : List ℕ) : ℕ := stamps.headD 0

/-- The timestamp of the `k`-th last access. -/
def kthLastAccess (k : ℕ) (stamps : List ℕ) : ℕ := stamps.getD (stamps.length - k) 0

/-- The backward `k`-distance; a frame with fewer than `k` accesses is infinitely far. -/
def backwardDistance (k clock : ℕ) (stamps : List ℕ) : ℕ∞ :=
 if stamps.length < k then ⊤ else ((clock - kthLastAccess k stamps : ℕ) : ℕ∞)

/-- The first frame has to go before the second one. -/
def Precedes (k clock : ℕ) (stamps other : List ℕ) : Prop :=
 backwardDistance k clock other < backwardDistance k clock stamps ∨
  (backwardDistance k clock stamps = ⊤ ∧ backwardDistance k clock other = ⊤ ∧
   firstAccess stamps < firstAccess other)

/-! ### The invariant -/

structure Ordered (state : Recorded) : Prop where
 wellFormed : state.replacer.WellFormed
 two_le : 2 ≤ state.replacer.k
 clock : state.replacer.currentTimestamp = state.clock
 unknown : ∀ frameId, state.replacer.nodeStore frameId = none → state.accesses frameId = []
 known : ∀ frameId node, state.replacer.nodeStore frameId = some node →
  state.accesses frameId ≠ [] ∧ node.history =
   (state.accesses frameId).drop ((state.accesses frameId).length - state.replacer.k)
 stamped : ∀ frameId, ∀ stamp ∈ state.accesses frameId, stamp ≤ state.clock
 apart : ∀ frameId other stamp, stamp ∈ state.accesses frameId →
  stamp ∈ state.accesses other → frameId = other
 young : state.replacer.nodeLessK.Pairwise fun left right =>
  firstAccess (state.accesses right) < firstAccess (state.accesses left)
 mature : state.replacer.nodeMoreK.Pairwise fun left right =>
  kthLastAccess state.replacer.k (state.accesses left) <
   kthLastAccess state.replacer.k (state.accesses right)

variable {k : ℕ}

theorem start_ordered (numFrames : ℕ) (two_le : 2 ≤ k) :
 Ordered (.start numFrames k) where
 wellFormed := new_wellFormed numFrames k
 two_le := two_le
 clock := rfl
 unknown := fun _ _ => rfl
 known := by
  intro frameId node impossible
  cases impossible
 stamped := by
  intro frameId stamp impossible
  cases impossible
 apart := by
  intro frameId other stamp impossible
  cases impossible
 young := List.Pairwise.nil
 mature := List.Pairwise.nil

theorem pairwise_of_keys (relation : ℕ → ℕ → Prop) {items : List FrameId}
 {before after : FrameId → ℕ} (same : ∀ item ∈ items, after item = before item)
 (sorted : items.Pairwise fun left right => relation (before left) (before right)) :
 items.Pairwise fun left right => relation (after left) (after right) := by
 apply sorted.imp_of_mem
 simp_all

variable {state : Recorded}

theorem kthLastAccess_mem {stamps : List ℕ} (positive : 1 ≤ k) (mature : k ≤ stamps.length) :
 kthLastAccess k stamps ∈ stamps := by
 have bound : stamps.length - k < stamps.length := by omega
 rw [kthLastAccess, getD_eq_getElem?_getD, getElem?_eq_getElem bound]
 exact getElem_mem bound

theorem firstAccess_mem {stamps : List ℕ} (accessed : stamps ≠ []) :
 firstAccess stamps ∈ stamps := by
 cases stamps with
 | nil => exact absurd rfl accessed
 | cons first rest => exact mem_cons_self

namespace Ordered

variable {frameId : FrameId}

variable (ordered : Ordered state)
include ordered

theorem length_history {node : LRUKNode} (found : state.replacer.nodeStore frameId = some node) :
 node.history.length = min state.replacer.k (state.accesses frameId).length := by
 rw [(ordered.known frameId node found).2, length_drop]
 omega

theorem accessed (member : frameId ∈ state.replacer.frames) : state.accesses frameId ≠ [] := by
 obtain ⟨node, found⟩ := isSome_iff_exists.mp ((ordered.wellFormed.tracked frameId).mp member)
 exact (ordered.known frameId node found).1

theorem young_iff (member : frameId ∈ state.replacer.frames) :
 frameId ∈ state.replacer.nodeLessK ↔
  (state.accesses frameId).length < state.replacer.k := by
 obtain ⟨node, found⟩ := isSome_iff_exists.mp ((ordered.wellFormed.tracked frameId).mp member)
 rw [(ordered.wellFormed.placed frameId node found).2.2, ordered.length_history found]
 omega

theorem mature_length (member : frameId ∈ state.replacer.nodeMoreK) :
 state.replacer.k ≤ (state.accesses frameId).length := by
 have tracked : frameId ∈ state.replacer.frames := mem_append_right _ member
 have notYoung : frameId ∉ state.replacer.nodeLessK :=
  fun inLess => ordered.wellFormed.apart inLess member
 rw [ordered.young_iff tracked] at notYoung
 omega

theorem oldest_eq (member : frameId ∈ state.replacer.nodeMoreK) :
 state.replacer.oldest frameId =
  kthLastAccess state.replacer.k (state.accesses frameId) := by
 have tracked : frameId ∈ state.replacer.frames := mem_append_right _ member
 obtain ⟨node, found⟩ := isSome_iff_exists.mp ((ordered.wellFormed.tracked frameId).mp tracked)
 rw [oldest, found, bind_some, (ordered.known frameId node found).2, head?_drop,
  kthLastAccess, getD_eq_getElem?_getD]

theorem first_le (member : frameId ∈ state.replacer.frames) :
 firstAccess (state.accesses frameId) ≤ state.clock :=
 ordered.stamped frameId _ (firstAccess_mem (ordered.accessed member))

end Ordered

/-! ### RecordAccess -/

/-- The accesses after one more access to a frame. -/
def Recorded.touched (state : Recorded) (frameId : FrameId) : FrameId → List ℕ :=
 update state.accesses frameId (state.accesses frameId ++ [state.clock + 1])

theorem touched_self (frameId : FrameId) :
 state.touched frameId frameId = state.accesses frameId ++ [state.clock + 1] :=
 update_self ..

variable {other frameId : FrameId}

theorem touched_other (different : other ≠ frameId) :
 state.touched frameId other = state.accesses other :=
 update_of_ne different ..

theorem mem_touched {stamp : ℕ} (member : stamp ∈ state.touched frameId other) :
 stamp ∈ state.accesses other ∨ (other = frameId ∧ stamp = state.clock + 1) := by
 by_cases same : other = frameId
 · subst other
   rw [touched_self, mem_append, mem_singleton] at member
   rcases member with old | new
   · exact .inl old
   · exact .inr ⟨rfl, new⟩
 · rw [touched_other same] at member
   exact .inl member

namespace Ordered

variable {frameId : FrameId}

theorem touched_apart (ordered : Ordered state) (accessed : FrameId) {stamp : ℕ}
 (inFirst : stamp ∈ state.touched accessed frameId)
 (inOther : stamp ∈ state.touched accessed other) : frameId = other := by
 rcases mem_touched inFirst with old | ⟨own, new⟩
 · rcases mem_touched inOther with oldOther | ⟨-, newOther⟩
   · exact ordered.apart frameId other stamp old oldOther
   · have bound := ordered.stamped frameId stamp old
     omega
 · rcases mem_touched inOther with oldOther | ⟨ownOther, -⟩
   · have bound := ordered.stamped other stamp oldOther
     omega
   · rw [own, ownOther]

theorem first_touched (ordered : Ordered state) (accessed : FrameId)
 (member : frameId ∈ state.replacer.frames) :
 firstAccess (state.touched accessed frameId) = firstAccess (state.accesses frameId) := by
 by_cases same : frameId = accessed
 · subst frameId
   rw [touched_self]
   cases found : state.accesses accessed with
   | nil => exact absurd found (ordered.accessed member)
   | cons first rest => rfl
 · rw [touched_other same]

variable {node : LRUKNode}

theorem history_touched (ordered : Ordered state)
 (found : state.replacer.nodeStore frameId = some node) :
 (node.recordAccess (state.clock + 1)).history =
  (state.accesses frameId ++ [state.clock + 1]).drop
   ((state.accesses frameId).length + 1 - state.replacer.k) := by
 have length := ordered.length_history found
 have two_le := ordered.two_le
 unfold LRUKNode.recordAccess
 dsimp only
 rw [(ordered.wellFormed.placed frameId node found).2.1, drop_append_of_le_length (by omega)]
 congr 1
 by_cases full : node.history.length ≥ state.replacer.k
 · rw [if_pos full, (ordered.known frameId node found).2, tail_drop]
   congr 1
   omega
 · rw [if_neg full, (ordered.known frameId node found).2]
   congr 1
   omega

variable {next : LRUKReplacer}

variable (ordered : Ordered state)
include ordered

theorem insertMoreK_sorted {items : List FrameId} (sublist : items.Sublist state.replacer.nodeMoreK)
 (absent : frameId ∉ items)
 (store : next.nodeStore = update state.replacer.nodeStore frameId (some node))
 (history : node.history = (state.accesses frameId ++ [state.clock + 1]).drop
  ((state.accesses frameId).length + 1 - state.replacer.k))
 (enough : state.replacer.k ≤ (state.accesses frameId).length + 1) :
 (next.insertMoreK frameId items).Pairwise fun left right =>
  kthLastAccess state.replacer.k (state.touched frameId left) <
   kthLastAccess state.replacer.k (state.touched frameId right) := by
 have two_le := ordered.two_le
 have others : ∀ other ∈ items, other ≠ frameId :=
  fun other member same => absent (same ▸ member)
 have own : next.oldest frameId =
  kthLastAccess state.replacer.k (state.touched frameId frameId) := by
  rw [oldest, store, update_self, bind_some, history, head?_drop,
   touched_self, kthLastAccess, getD_eq_getElem?_getD, length_append,
   length_singleton]
 have keys : ∀ other ∈ items, next.oldest other =
  kthLastAccess state.replacer.k (state.touched frameId other) := by
  intro other member
  rw [touched_other (others other member), ← ordered.oldest_eq (sublist.subset member),
   oldest, oldest, store, update_of_ne (others other member)]
 have ownMember : next.oldest frameId ∈ state.touched frameId frameId := by
  rw [own]
  apply kthLastAccess_mem (by omega)
  rw [touched_self, length_append, length_singleton]
  exact enough
 have distinct : ∀ other ∈ items, next.oldest other ≠ next.oldest frameId := by
  intro other member same
  have long := ordered.mature_length (sublist.subset member)
  have otherMember : next.oldest other ∈ state.touched frameId other := by
   rw [keys other member]
   apply kthLastAccess_mem (by omega)
   rw [touched_other (others other member)]
   exact long
  rw [same] at otherMember
  exact others other member (ordered.touched_apart frameId otherMember ownMember)
 have sorted : items.Pairwise fun left right => next.oldest left < next.oldest right := by
  apply pairwise_of_keys (· < ·) _ (ordered.mature.sublist sublist)
  intro other member
  rw [keys other member, touched_other (others other member)]
 have inserted : (next.insertMoreK frameId items).Pairwise fun left right =>
  next.oldest left < next.oldest right := by
  apply pairwise_insert _ sorted
  · grind
  · intro other member passed
    have apart := distinct other member
    grind
  · simp
 apply pairwise_of_keys (· < ·) _ inserted
 intro other member
 rcases mem_cons.mp ((insertMoreK_perm next frameId items).mem_iff.mp member) with same | old
 · rw [same, own]
 · rw [keys other old]

theorem touch (wellFormed : next.WellFormed) (k : next.k = state.replacer.k)
 (clock : next.currentTimestamp = state.replacer.currentTimestamp + 1)
 (store : next.nodeStore = update state.replacer.nodeStore frameId (some node))
 (history : node.history = (state.accesses frameId ++ [state.clock + 1]).drop
  ((state.accesses frameId).length + 1 - state.replacer.k))
 (young : next.nodeLessK.Pairwise fun left right =>
  firstAccess (state.touched frameId right) < firstAccess (state.touched frameId left))
 (mature : next.nodeMoreK.Pairwise fun left right =>
  kthLastAccess state.replacer.k (state.touched frameId left) <
   kthLastAccess state.replacer.k (state.touched frameId right)) :
 Ordered ⟨next, state.clock + 1, state.touched frameId⟩ where
 wellFormed := wellFormed
 two_le := by
  rw [k]
  exact ordered.two_le
 clock := by
  rw [clock, ordered.clock]
 unknown := by
  intro other missing
  by_cases same : other = frameId
  · simp_all
  · rw [store, update_of_ne same] at missing
    exact (touched_other same).trans (ordered.unknown other missing)
 known := by
  intro other otherNode found
  dsimp only
  rw [k]
  by_cases same : other = frameId
  · rw [store, same, update_self] at found
    cases found
    rw [same, touched_self, length_append, length_singleton]
    simp_all
  · rw [store, update_of_ne same] at found
    rw [touched_other same]
    exact ordered.known other otherNode found
 stamped := by
  intro other stamp member
  rcases mem_touched member with old | ⟨-, new⟩
  · exact le_succ_of_le (ordered.stamped other stamp old)
  · exact new.le
 apart := fun _ _ _ => ordered.touched_apart frameId
 young := young
 mature := by
  rw [k]
  exact mature

theorem recordAccess (accepted : state.replacer.recordAccess frameId = some next) :
 Ordered ⟨next, state.clock + 1, state.touched frameId⟩ ∧ next.k = state.replacer.k := by
 have two_le := ordered.two_le
 have inRange : frameId ≤ state.replacer.replacerSize := by
  by_contra outside
  rw [LRUKReplacer.recordAccess, if_pos (Nat.lt_of_not_le outside)] at accepted
  cases accepted
 obtain ⟨result, recorded, evolves⟩ := recordAccess_spec ordered.wellFormed two_le inRange
 rw [recorded] at accepted
 cases accepted
 refine ⟨?_, evolves.k⟩
 unfold LRUKReplacer.recordAccess at recorded
 rw [if_neg (Nat.not_lt.mpr inRange)] at recorded
 have youngKept := pairwise_of_keys (fun left right => right < left)
  (fun other (member : other ∈ state.replacer.nodeLessK) =>
   ordered.first_touched frameId (mem_append_left _ member)) ordered.young
 cases found : state.replacer.nodeStore frameId with
 | none =>
  have absent := ordered.wellFormed.not_mem_of_none found
  have fresh := ordered.unknown frameId found
  rw [found] at recorded
  cases recorded
  apply ordered.touch evolves.wellFormed rfl rfl rfl
  · have all : ([] : List ℕ).length + 1 - state.replacer.k = 0 := by
     rw [length_nil]
     omega
    rw [ordered.clock, fresh, all, LRUKNode.recordAccess, LRUKNode.new]
    dsimp only
    rw [length_nil, if_neg (by omega)]
    rfl
  · rw [pairwise_cons]
    refine ⟨?_, youngKept⟩
    intro other member
    have tracked : other ∈ state.replacer.frames := mem_append_left _ member
    rw [ordered.first_touched frameId tracked, touched_self, fresh]
    exact Nat.lt_succ_of_le (ordered.first_le tracked)
  · apply pairwise_of_keys (· < ·) _ ordered.mature
    intro other member
    rw [touched_other]
    intro same
    exact absent (same ▸ mem_append_right _ member)
 | some node =>
  have length := ordered.length_history found
  have place := ordered.wellFormed.placed frameId node found
  have history := ordered.history_touched found
  rw [← ordered.clock] at history
  rw [found] at recorded
  dsimp only at recorded
  by_cases atK : node.history.length = state.replacer.k - 1
  · rw [if_pos atK] at recorded
    cases recorded
    have inLess : frameId ∈ state.replacer.nodeLessK := place.2.2.mpr (by omega)
    apply ordered.touch evolves.wellFormed rfl rfl rfl
    · rw [history, ordered.clock]
    · exact youngKept.sublist erase_sublist
    · exact ordered.insertMoreK_sorted (List.Sublist.refl _)
       (ordered.wellFormed.apart inLess) rfl (by rw [history, ordered.clock]) (by omega)
  · rw [if_neg atK] at recorded
    by_cases more : node.history.length ≥ state.replacer.k
    · rw [if_pos more] at recorded
      cases recorded
      have nodup := (nodup_append.mp ordered.wellFormed.nodup).2.1
      apply ordered.touch evolves.wellFormed rfl rfl rfl
      · rw [history, ordered.clock]
      · exact youngKept
      · exact ordered.insertMoreK_sorted erase_sublist nodup.not_mem_erase rfl
         (by rw [history, ordered.clock]) (by omega)
    · rw [if_neg more] at recorded
      cases recorded
      have inLess : frameId ∈ state.replacer.nodeLessK := place.2.2.mpr (by omega)
      apply ordered.touch evolves.wellFormed rfl rfl rfl
      · rw [history, ordered.clock]
      · exact youngKept
      · apply pairwise_of_keys (· < ·) _ ordered.mature
        intro other member
        rw [touched_other]
        intro same
        exact ordered.wellFormed.apart inLess (same ▸ member)

/-! ### SetEvictable, Remove and Evict -/

theorem same_histories (wellFormed : next.WellFormed) (k : next.k = state.replacer.k)
 (clock : next.currentTimestamp = state.replacer.currentTimestamp)
 (store : ∀ frameId, (next.nodeStore frameId).map LRUKNode.history =
  (state.replacer.nodeStore frameId).map LRUKNode.history)
 (less : next.nodeLessK = state.replacer.nodeLessK)
 (more : next.nodeMoreK = state.replacer.nodeMoreK) : Ordered { state with replacer := next } where
 wellFormed := wellFormed
 two_le := by
  rw [k]
  exact ordered.two_le
 clock := clock.trans ordered.clock
 unknown := by
  intro frameId missing
  have same := store frameId
  rw [missing] at same
  exact ordered.unknown frameId (map_eq_none_iff.mp same.symm)
 known := by
  intro frameId node found
  have same := store frameId
  rw [found] at same
  obtain ⟨old, foundOld, history⟩ := map_eq_some_iff.mp same.symm
  rw [k, ← history]
  exact ordered.known frameId old foundOld
 stamped := ordered.stamped
 apart := ordered.apart
 young := by
  rw [less]
  exact ordered.young
 mature := by
  rw [more, k]
  exact ordered.mature

theorem setEvictable {flag : Bool}
 (accepted : state.replacer.setEvictable frameId flag = some next) :
 Ordered { state with replacer := next } ∧ next.k = state.replacer.k := by
 have inRange : frameId ≤ state.replacer.replacerSize := by
  by_contra outside
  rw [LRUKReplacer.setEvictable, if_pos (Nat.lt_of_not_le outside)] at accepted
  cases accepted
 obtain ⟨result, done, evolves⟩ := setEvictable_spec ordered.wellFormed inRange flag
 rw [done] at accepted
 cases accepted
 refine ⟨?_, evolves.k⟩
 unfold LRUKReplacer.setEvictable at done
 rw [if_neg (Nat.not_lt.mpr inRange)] at done
 cases found : state.replacer.nodeStore frameId with
 | none =>
  rw [found] at done
  cases done
  exact ordered
 | some node =>
  rw [found] at done
  cases done
  apply ordered.same_histories evolves.wellFormed rfl rfl _ rfl rfl
  intro other
  dsimp only
  by_cases same : other = frameId
  · rw [same, update_self, found]
    rfl
  · rw [update_of_ne same]

theorem forget (wellFormed : next.WellFormed) (k : next.k = state.replacer.k)
 (clock : next.currentTimestamp = state.replacer.currentTimestamp)
 (store : next.nodeStore = update state.replacer.nodeStore frameId none)
 (less : next.nodeLessK = state.replacer.nodeLessK.erase frameId)
 (more : next.nodeMoreK = state.replacer.nodeMoreK.erase frameId) :
 Ordered (state.forget frameId next) := by
 have others : ∀ other, other ≠ frameId →
  (state.forget frameId next).accesses other = state.accesses other :=
  fun other different => update_of_ne different ..
 have gone : (state.forget frameId next).accesses frameId = [] := update_self ..
 have kept : ∀ other stamp, stamp ∈ (state.forget frameId next).accesses other →
  stamp ∈ state.accesses other := by
  intro other stamp member
  by_cases same : other = frameId
  · rw [same, gone] at member
    cases member
  · rwa [others other same] at member
 have nodups := nodup_append.mp ordered.wellFormed.nodup
 refine ⟨wellFormed, ?_, clock.trans ordered.clock, ?_, ?_, ?_, ?_, ?_, ?_⟩
 · change 2 ≤ next.k
   rw [k]
   exact ordered.two_le
 · intro other missing
   by_cases same : other = frameId
   · rw [same, gone]
   · change next.nodeStore other = none at missing
     rw [store, update_of_ne same] at missing
     rw [others other same, ordered.unknown other missing]
 · intro other node found
   change next.nodeStore other = some node at found
   change _ ∧ node.history = (_ : List ℕ).drop (_ - next.k)
   by_cases same : other = frameId
   · simp_all
   · rw [store, update_of_ne same] at found
     rw [others other same, k]
     exact ordered.known other node found
 · intro other stamp member
   exact ordered.stamped other stamp (kept other stamp member)
 · intro first second stamp inFirst inSecond
   exact ordered.apart first second stamp (kept first stamp inFirst) (kept second stamp inSecond)
 · change next.nodeLessK.Pairwise _
   rw [less]
   apply pairwise_of_keys (fun left right => right < left) _
    (ordered.young.sublist erase_sublist)
   grind
 · change next.nodeMoreK.Pairwise fun left right =>
    kthLastAccess next.k _ < kthLastAccess next.k _
   rw [more, k]
   apply pairwise_of_keys (· < ·) _ (ordered.mature.sublist erase_sublist)
   grind

end Ordered

variable {self next : LRUKReplacer}

theorem remove_eq (wellFormed : self.WellFormed) (done : self.remove frameId = some next) :
 (self.nodeStore frameId = none ∧ next = self) ∨
  (self.status frameId = some true ∧ next.currentTimestamp = self.currentTimestamp ∧
   next.nodeStore = update self.nodeStore frameId none ∧
   next.nodeLessK = self.nodeLessK.erase frameId ∧
   next.nodeMoreK = self.nodeMoreK.erase frameId) := by
 unfold remove at done
 cases found : self.nodeStore frameId with
 | none =>
  simp_all
 | some node =>
  rw [found] at done
  dsimp only at done
  cases flag : node.isEvictable with
  | false =>
   rw [flag] at done
   cases done
  | true =>
   rw [flag, Bool.not_true, if_neg Bool.false_ne_true] at done
   have place := (wellFormed.placed frameId node found).2.2
   have others := erase_other_list wellFormed frameId
   have flagged : self.status frameId = some true := by
    rw [status_of_some found, flag]
   apply Or.inr
   by_cases short : node.history.length < self.k
   · grind
   · grind

def PassedOver (self : LRUKReplacer) (frames : List FrameId) : Prop :=
 ∀ frameId ∈ frames, self.status frameId ≠ some true

theorem not_evictable_of_none (missed : self.evictableNode frameId = none) :
 self.status frameId ≠ some true := by
 intro flagged
 obtain ⟨node, found, flag⟩ := map_eq_some_iff.mp flagged
 rw [evictableNode, found, filter_some, if_pos flag] at missed
 cases missed

theorem evict_eq (wellFormed : self.WellFormed) (evicted : self.evict = some (frameId, next)) :
 ((∃ before after, self.nodeLessK.reverse = before ++ frameId :: after ∧
  self.PassedOver before) ∨
  (self.PassedOver self.nodeLessK ∧ ∃ before after,
   self.nodeMoreK = before ++ frameId :: after ∧ self.PassedOver before)) ∧
  next.currentTimestamp = self.currentTimestamp ∧
  next.nodeStore = update self.nodeStore frameId none ∧
  next.nodeLessK = self.nodeLessK.erase frameId ∧
  next.nodeMoreK = self.nodeMoreK.erase frameId := by
 unfold evict at evicted
 by_cases empty : self.currSize = 0
 · rw [if_pos empty] at evicted
   cases evicted
 · rw [if_neg empty] at evicted
   cases early : self.nodeLessK.reverse.findSome? self.evictableNode with
   | some curNode =>
    obtain ⟨before, victim, after, split, found, passed⟩ :=
     findSome?_eq_some_iff.mp early
    obtain ⟨-, -, fid⟩ := evictableNode_eq_some wellFormed found
    have inLess : victim ∈ self.nodeLessK := by
     rw [← mem_reverse, split]
     exact mem_append_right _ mem_cons_self
    rw [early] at evicted
    dsimp only at evicted
    rw [fid] at evicted
    cases evicted
    refine ⟨.inl ⟨before, after, split, ?_⟩, rfl, rfl, rfl, ?_⟩
    · intro other member
      exact not_evictable_of_none (passed other member)
    · exact ((erase_other_list wellFormed _).1 inLess).symm
   | none =>
    rw [early] at evicted
    cases late : self.nodeMoreK.findSome? self.evictableNode with
    | none =>
     rw [late] at evicted
     cases evicted
    | some curNode =>
     obtain ⟨before, victim, after, split, found, passed⟩ :=
      findSome?_eq_some_iff.mp late
     obtain ⟨-, -, fid⟩ := evictableNode_eq_some wellFormed found
     have inMore : victim ∈ self.nodeMoreK := by
      rw [split]
      exact mem_append_right _ mem_cons_self
     rw [late] at evicted
     dsimp only at evicted
     rw [fid] at evicted
     cases evicted
     refine ⟨.inr ⟨?_, before, after, split, ?_⟩, rfl, rfl, ?_, rfl⟩
     · intro other member
       exact not_evictable_of_none
        (findSome?_eq_none_iff.mp early other (mem_reverse.mpr member))
     · intro other member
       exact not_evictable_of_none (passed other member)
     · exact ((erase_other_list wellFormed _).2 fun inLess =>
        wellFormed.apart inLess inMore).symm

/-! ### Every history -/

theorem Ordered.call (ordered : Ordered state) (call : Call) :
 Ordered (state.call call) ∧ (state.call call).replacer.k = state.replacer.k := by
 unfold Recorded.call
 cases call with
 | recordAccess frameId =>
  dsimp only
  cases accepted : state.replacer.recordAccess frameId with
  | none => exact ⟨ordered, rfl⟩
  | some next => exact ordered.recordAccess accepted
 | setEvictable frameId flag =>
  dsimp only
  cases accepted : state.replacer.setEvictable frameId flag with
  | none => exact ⟨ordered, rfl⟩
  | some next => exact ordered.setEvictable accepted
 | remove frameId =>
  dsimp only
  cases done : state.replacer.remove frameId with
  | none => exact ⟨ordered, rfl⟩
  | some next =>
   rcases remove_eq ordered.wellFormed done with
    ⟨missing, same⟩ | ⟨flagged, clock, store, less, more⟩
   · -- An untracked frame has no accesses to forget.
     subst same
     have nothing : state.forget frameId state.replacer = state := by
      unfold Recorded.forget
      rw [← ordered.unknown frameId missing, update_eq_self]
     simp_all
   · obtain ⟨result, removed, evolves⟩ := remove_spec ordered.wellFormed flagged
     rw [removed] at done
     cases done
     exact ⟨ordered.forget evolves.wellFormed evolves.k clock store less more, evolves.k⟩
 | evict =>
  cases evicted : state.replacer.evict with
  | none => exact ⟨ordered, rfl⟩
  | some victim =>
   obtain ⟨-, evolves⟩ := evict_spec ordered.wellFormed evicted
   obtain ⟨-, clock, store, less, more⟩ := evict_eq ordered.wellFormed evicted
   exact ⟨ordered.forget evolves.wellFormed evolves.k clock store less more, evolves.k⟩

theorem ordered_of_calls (two_le : 2 ≤ k) (numFrames : ℕ) (calls : List Call) :
 Ordered (calls.foldl Recorded.call (.start numFrames k)) ∧
  (calls.foldl Recorded.call (.start numFrames k)).replacer.k = k := by
 induction calls using reverseRecOn with
 | nil => exact ⟨start_ordered numFrames two_le, rfl⟩
 | append_singleton calls call ih =>
  rw [foldl_append]
  obtain ⟨ordered, same⟩ := ih.1.call call
  exact ⟨ordered, same.trans ih.2⟩

/-- `Evict` chooses by the distances, and what it chose is forgotten. -/
structure Optimal (k : ℕ) (state : Recorded) : Prop where
 refused : state.replacer.evict = none ↔
  ∀ frameId, state.replacer.status frameId ≠ some true
 evictable : ∀ frameId next, state.replacer.evict = some (frameId, next) →
  state.replacer.status frameId = some true
 first : ∀ frameId next, state.replacer.evict = some (frameId, next) →
  ∀ other, state.replacer.status other = some true → other ≠ frameId →
   Precedes k state.clock (state.accesses frameId) (state.accesses other)
 dropped : ∀ frameId next, state.replacer.evict = some (frameId, next) →
  next.nodeStore = update state.replacer.nodeStore frameId none

theorem Ordered.young_distance (ordered : Ordered state)
 (inLess : frameId ∈ state.replacer.nodeLessK) :
 backwardDistance state.replacer.k state.clock (state.accesses frameId) = ⊤ := by
 rw [backwardDistance, if_pos ((ordered.young_iff (mem_append_left _ inLess)).mp inLess)]

theorem Ordered.mature_distance (ordered : Ordered state)
 (inMore : frameId ∈ state.replacer.nodeMoreK) :
 backwardDistance state.replacer.k state.clock (state.accesses frameId) =
  ((state.clock - kthLastAccess state.replacer.k (state.accesses frameId) : ℕ) : ℕ∞) := by
 rw [backwardDistance, if_neg (not_lt.mpr (ordered.mature_length inMore))]

theorem mem_frames_of_status (wellFormed : self.WellFormed)
 (flagged : self.status frameId = some true) :
 frameId ∈ self.nodeLessK ∨ frameId ∈ self.nodeMoreK := by
 obtain ⟨node, found, -⟩ := map_eq_some_iff.mp flagged
 exact mem_append.mp (wellFormed.mem_of_some found)

theorem mem_after {before after : List FrameId} (passed : self.PassedOver before)
 (flagged : self.status other = some true) (different : other ≠ frameId)
 (member : other ∈ before ++ frameId :: after) : other ∈ after := by
 rcases mem_append.mp member with inBefore | rest
 · exact absurd flagged (passed other inBefore)
 · simp_all

theorem Ordered.precedes (ordered : Ordered state)
 (evicted : state.replacer.evict = some (frameId, next))
 (flagged : state.replacer.status other = some true) (different : other ≠ frameId) :
 Precedes state.replacer.k state.clock (state.accesses frameId) (state.accesses other) := by
 have place := mem_frames_of_status ordered.wellFormed flagged
 rcases (evict_eq ordered.wellFormed evicted).1 with
  ⟨before, after, split, passed⟩ | ⟨noneYoung, before, after, split, passed⟩
 · have order := pairwise_reverse.mpr ordered.young
   rw [split, pairwise_append, pairwise_cons] at order
   have inLess : frameId ∈ state.replacer.nodeLessK := by
    rw [← mem_reverse, split]
    exact mem_append_right _ mem_cons_self
   have infinite := ordered.young_distance inLess
   rcases place with otherLess | otherMore
   · have later : other ∈ after := by
      apply mem_after passed flagged different
      rw [← split, mem_reverse]
      exact otherLess
     exact Or.inr ⟨infinite, ordered.young_distance otherLess, order.2.1.1 other later⟩
   · apply Or.inl
     rw [infinite, ordered.mature_distance otherMore]
     exact ENat.natCast_lt_top _
 · have order := ordered.mature
   rw [split, pairwise_append, pairwise_cons] at order
   have inMore : frameId ∈ state.replacer.nodeMoreK := by
    rw [split]
    exact mem_append_right _ mem_cons_self
   rcases place with otherLess | otherMore
   · exact absurd flagged (noneYoung other otherLess)
   · have later : other ∈ after := by
      apply mem_after passed flagged different
      rw [← split]
      exact otherMore
     have two_le := ordered.two_le
     have less := order.2.1.1 other later
     have past := ordered.stamped other _
      (kthLastAccess_mem (by omega) (ordered.mature_length otherMore))
     apply Or.inl
     rw [ordered.mature_distance inMore, ordered.mature_distance otherMore, cast_lt]
     omega

theorem evict_eq_none_iff (wellFormed : self.WellFormed) :
 self.evict = none ↔ ∀ frameId, self.status frameId ≠ some true := by
 constructor
 · intro refused frameId flagged
   obtain ⟨victim, next, evicted, -⟩ := evict_some wellFormed flagged
   rw [refused] at evicted
   cases evicted
 · exact evict_none wellFormed

/-- A frame is evictable from its first access on, and `SetEvictable` is the only call that changes
this while it stays. -/
theorem Ordered.status_call (ordered : Ordered state) (call : Call) (frameId : FrameId) :
 (state.call call).replacer.status frameId =
  match call with
  | .recordAccess accessed =>
   if accessed ≤ state.replacer.replacerSize ∧ frameId = accessed then
    some ((state.replacer.status accessed).getD true)
   else state.replacer.status frameId
  | .setEvictable changed flag =>
   if changed ≤ state.replacer.replacerSize ∧ frameId = changed then
    (state.replacer.status changed).map fun _ => flag
   else state.replacer.status frameId
  | .remove removed =>
   if state.replacer.status removed = some true ∧ frameId = removed then none
   else state.replacer.status frameId
  | .evict =>
   if state.replacer.evict.map Prod.fst = some frameId then none
   else state.replacer.status frameId := by
 cases call with
 | recordAccess accessed =>
  by_cases inRange : accessed ≤ state.replacer.replacerSize
  · obtain ⟨result, taken, evolves⟩ := recordAccess_spec ordered.wellFormed ordered.two_le inRange
    simp only [Recorded.call, taken, evolves.status, inRange, true_and]
  · have refused : state.replacer.recordAccess accessed = none := if_pos (not_le.mp inRange)
    simp only [Recorded.call, refused, inRange, false_and, if_false]
 | setEvictable changed flag =>
  by_cases inRange : changed ≤ state.replacer.replacerSize
  · obtain ⟨result, taken, evolves⟩ := setEvictable_spec ordered.wellFormed inRange flag
    simp only [Recorded.call, taken, evolves.status, inRange, true_and]
  · have refused : state.replacer.setEvictable changed flag = none := if_pos (not_le.mp inRange)
    simp only [Recorded.call, refused, inRange, false_and, if_false]
 | remove removed =>
  by_cases evictable : state.replacer.status removed = some true
  · obtain ⟨result, taken, evolves⟩ := remove_spec ordered.wellFormed evictable
    simp only [Recorded.call, taken, Recorded.forget, evolves.status, evictable, true_and]
  · simp only [evictable, false_and, if_false]
    cases done : state.replacer.remove removed with
    | none => simp [Recorded.call, done]
    | some result =>
     rw [remove_not_evictable evictable done] at done
     simp [Recorded.call, done, Recorded.forget]
 | evict =>
  cases evicted : state.replacer.evict with
  | none => simp [Recorded.call, evicted]
  | some chosen =>
   have evolves := (evict_spec ordered.wellFormed evicted).2
   simp [Recorded.call, evicted, Recorded.forget, evolves.status, eq_comm]

/-- After every history of calls `Evict` takes the evictable frame with the largest
backward `k`-distance, the one with the earliest first access among the infinite ones. -/
theorem evict_optimal {k : ℕ} (two_le : 2 ≤ k) (numFrames : ℕ) (calls : List Call) :
 Optimal k (calls.foldl Recorded.call (.start numFrames k)) := by
 obtain ⟨ordered, same⟩ := ordered_of_calls two_le numFrames calls
 refine ⟨evict_eq_none_iff ordered.wellFormed, ?_, ?_, ?_⟩
 · intro frameId next evicted
   exact (evict_spec ordered.wellFormed evicted).1
 · intro frameId next evicted other flagged different
   have precedes := ordered.precedes evicted flagged different
   rw [same] at precedes
   exact precedes
 · intro frameId next evicted
   exact (evict_eq ordered.wellFormed evicted).2.2.1

/-- Frame 1 has the earlier second last access, but is not evictable. -/
theorem evict_optimal_among_mature :
 ((([.recordAccess 1, .recordAccess 2, .recordAccess 2, .recordAccess 1, .recordAccess 3,
   .recordAccess 3, .setEvictable 1 false] : List Call).foldl
  Recorded.call (.start 4 2)).replacer.evict.map Prod.fst) = some 2 ∧
 Optimal 2 ([.recordAccess 1, .recordAccess 2, .recordAccess 2, .recordAccess 1, .recordAccess 3,
  .recordAccess 3, .setEvictable 1 false].foldl Recorded.call (.start 4 2)) :=
 ⟨by decide, evict_optimal (Nat.le_refl 2) 4 _⟩

end MyNotes.Cmu15445.LRUKReplacer
