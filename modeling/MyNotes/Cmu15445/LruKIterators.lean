/-
The LRU-K replacer of project 1 with the iterators `pos_`, and the corrected `Remove`.

An iterator is the identity of a list node.  `erase` through an iterator into the other
list is undefined, and a call that throws leaves the replacer as it was.
-/

import MyNotes.Library.RecencyList
import MyNotes.Library.SortedCut
import MyNotes.Library.NodupList
import Mathlib.Data.List.Induction

namespace MyNotes.Cmu15445.LruKIterators

open Library Library.RecencyList Library.NodupList Function List Function Prod Nat

abbrev FrameId := ℤ

abbrev Iterator := ℕ

structure LRUKNode where
 history : List ℕ
 fid : FrameId
 k : ℕ
 isEvictable : Bool
 pos : Iterator

/-- At most `k` timestamps are kept, the oldest in front. -/
def LRUKNode.recordAccess (self : LRUKNode) (timestamp : ℕ) : LRUKNode :=
 let history := if self.history.length ≥ self.k then self.history.tail else self.history
 { self with history := history ++ [timestamp] }

structure LRUKReplacer where
 nodeStore : FrameId → Option LRUKNode
 nodeLessK : List (Iterator × FrameId)
 nodeMoreK : List (Iterator × FrameId)
 currentTimestamp : ℕ
 currSize : ℕ
 replacerSize : ℕ
 k : ℕ
 /-- The identity of the next list node. -/
 fresh : Iterator

inductive Call where
 | recordAccess (frameId : FrameId)
 | setEvictable (frameId : FrameId) (setEvictable : Bool)
 | remove (frameId : FrameId)
 | evict

inductive Outcome (Result : Type) where
 | returned (result : Result) (after : LRUKReplacer)
 | thrown
 | undefined

/-- The replacer after a call, if that is defined. -/
def Outcome.after {Result : Type} (before : LRUKReplacer) : Outcome Result → Option LRUKReplacer
 | .returned _ after => some after
 | .thrown => some before
 | .undefined => none

/-- `static_cast<frame_id_t>(replacer_size_)` -/
def largestFrame (replacerSize : ℕ) : FrameId := (replacerSize : ℤ).bmod 4294967296

namespace LRUKReplacer

def new (numFrames k : ℕ) : LRUKReplacer :=
 { nodeStore := fun _ => none
   nodeLessK := []
   nodeMoreK := []
   currentTimestamp := 0
   currSize := 0
   replacerSize := numFrames
   k := k
   fresh := 0 }

/-- `history_.front()` of a frame. -/
def oldest (self : LRUKReplacer) (frameId : FrameId) : ℕ :=
 ((self.nodeStore frameId).bind fun node => node.history.head?).getD 0

/-- The insertion at `upper_bound`: before the first frame with a later stamp. -/
def insertMoreK (self : LRUKReplacer) (node : Iterator × FrameId)
 (frames : List (Iterator × FrameId)) : List (Iterator × FrameId) :=
 let notLater : Iterator × FrameId → Bool := fun a =>
  !decide (self.oldest a.2 > self.oldest node.2)
 frames.takeWhile notLater ++ node :: frames.dropWhile notLater

/-- The frame goes from the given list into `node_more_k_`; `pos_` is set to its new node. -/
def promote (self : LRUKReplacer) (frameId : FrameId) (node : LRUKNode)
 (nodeLessK nodeMoreK : List (Iterator × FrameId)) : LRUKReplacer :=
 { self with
  nodeLessK := nodeLessK
  nodeMoreK := self.insertMoreK (self.fresh, frameId) nodeMoreK
  nodeStore := update self.nodeStore frameId (some { node with pos := self.fresh })
  fresh := self.fresh + 1 }

def recordAccess (self : LRUKReplacer) (frameId : FrameId) : Outcome Unit :=
 if frameId > largestFrame self.replacerSize then .thrown
 else
  let now := self.currentTimestamp + 1
  match self.nodeStore frameId with
  | none =>
   .returned () { self with
    currentTimestamp := now
    nodeLessK := (self.fresh, frameId) :: self.nodeLessK
    nodeStore := update self.nodeStore frameId
     (some (LRUKNode.recordAccess ⟨[], frameId, self.k, true, self.fresh⟩ now))
    currSize := self.currSize + 1
    fresh := self.fresh + 1 }
  | some node =>
   let after := node.recordAccess now
   let self := { self with
    currentTimestamp := now
    nodeStore := update self.nodeStore frameId (some after) }
   if node.history.length + 1 = self.k then
    match erase? self.nodeLessK node.pos with
    | some nodeLessK => .returned () (self.promote frameId after nodeLessK self.nodeMoreK)
    | none => .undefined
   else if node.history.length ≥ self.k then
    match erase? self.nodeMoreK node.pos with
    | some nodeMoreK => .returned () (self.promote frameId after self.nodeLessK nodeMoreK)
    | none => .undefined
   else .returned () self

def setEvictable (self : LRUKReplacer) (frameId : FrameId) (setEvictable : Bool) :
 Outcome Unit :=
 if frameId > largestFrame self.replacerSize then .thrown
 else
  match self.nodeStore frameId with
  | none => .returned () self
  | some node =>
   let currSize := if node.isEvictable && !setEvictable then self.currSize - 1
    else self.currSize
   let currSize := if !node.isEvictable && setEvictable then currSize + 1 else currSize
   .returned () { self with
    nodeStore := update self.nodeStore frameId
     (some { node with isEvictable := setEvictable })
    currSize := currSize }

section

variable (self : LRUKReplacer)

/-- The frame leaves the store, and the lists are as given. -/
def forget (frameId : FrameId) (nodeLessK nodeMoreK : List (Iterator × FrameId)) : LRUKReplacer :=
 { self with
  nodeStore := update self.nodeStore frameId none
  currSize := self.currSize - 1
  nodeLessK := nodeLessK
  nodeMoreK := nodeMoreK }

def remove (frameId : FrameId) : Outcome Unit :=
 match self.nodeStore frameId with
 | none => .returned () self
 | some node =>
  if !node.isEvictable then .thrown
  else if node.history.length < self.k then
   match erase? self.nodeLessK node.pos with
   | some nodeLessK => .returned () (self.forget frameId nodeLessK self.nodeMoreK)
   | none => .undefined
  else
   match erase? self.nodeMoreK node.pos with
   | some nodeMoreK => .returned () (self.forget frameId self.nodeLessK nodeMoreK)
   | none => .undefined

/-- `node_store_.at(*it)`, when it may be evicted. -/
def evictableNode (entry : Iterator × FrameId) : Option LRUKNode :=
 (self.nodeStore entry.2).filter LRUKNode.isEvictable

/-- The frame that `*frame_id` is set to, or false. -/
def evict : Outcome (Option FrameId) :=
 if self.currSize = 0 then .returned none self
 else
  match self.nodeLessK.reverse.findSome? self.evictableNode with
  | some curNode =>
   match erase? self.nodeLessK curNode.pos with
   | some nodeLessK =>
    .returned (some curNode.fid) (self.forget curNode.fid nodeLessK self.nodeMoreK)
   | none => .undefined
  | none =>
   match self.nodeMoreK.findSome? self.evictableNode with
   | some curNode =>
    match erase? self.nodeMoreK curNode.pos with
    | some nodeMoreK =>
     .returned (some curNode.fid) (self.forget curNode.fid self.nodeLessK nodeMoreK)
    | none => .undefined
   | none => .returned none self

def call : Call → Option LRUKReplacer
 | .recordAccess frameId => (self.recordAccess frameId).after self
 | .setEvictable frameId setEvictable => (self.setEvictable frameId setEvictable).after self
 | .remove frameId => (self.remove frameId).after self
 | .evict => self.evict.after self

def run (calls : List Call) : Option LRUKReplacer :=
 calls.foldlM call self

end

/-! ### The invariant -/

def listed (self : LRUKReplacer) : List (Iterator × FrameId) := self.nodeLessK ++ self.nodeMoreK

def frames (self : LRUKReplacer) : List FrameId := self.listed.map Prod.snd

def counted (self : LRUKReplacer) (frameId : FrameId) : Bool :=
 (self.nodeStore frameId).any LRUKNode.isEvictable

/-- Store, lists and size agree: `listed` has one node for each tracked frame, the node is in
the list that its history asks for, and `pos_` is that node. -/
structure Represents (state : LRUKReplacer) : Prop where
 identities : (state.listed.map Prod.fst).Nodup
 once : state.frames.Nodup
 tracked : ∀ frameId, frameId ∈ state.frames ↔ (state.nodeStore frameId).isSome = true
 kept : ∀ frameId node, state.nodeStore frameId = some node → node.history.length ≤ state.k
 less : ∀ frameId node, state.nodeStore frameId = some node →
  node.history.length < state.k → (node.pos, frameId) ∈ state.nodeLessK
 more : ∀ frameId node, state.nodeStore frameId = some node →
  node.history.length = state.k → (node.pos, frameId) ∈ state.nodeMoreK
 ordered : state.nodeMoreK.Pairwise fun left right =>
  state.oldest left.2 ≤ state.oldest right.2
 size : state.currSize = state.frames.countP state.counted

/-- The invariant holds after each call, and no call erases through a foreign iterator. -/
def Maintained (numFrames k : ℕ) (calls : List Call) : Prop :=
 ∀ before, before <+: calls →
  ∃ state, (new numFrames k).run before = some state ∧ state.Represents

/-- With what the steps need besides: nodes know their frame, and new nodes are new. -/
structure Linked (state : LRUKReplacer) : Prop extends state.Represents where
 own : ∀ frameId node, state.nodeStore frameId = some node →
  node.fid = frameId ∧ node.k = state.k
 unused : ∀ entry ∈ state.listed, entry.1 < state.fresh

theorem new_linked (numFrames k : ℕ) : (new numFrames k).Linked where
 identities := nodup_nil
 once := nodup_nil
 tracked := by
  intro frameId
  simp [new, frames, listed]
 kept := by intro frameId node impossible; cases impossible
 less := by intro frameId node impossible; cases impossible
 more := by intro frameId node impossible; cases impossible
 ordered := List.Pairwise.nil
 size := rfl
 own := by intro frameId node impossible; cases impossible
 unused := by intro entry impossible; cases impossible

variable {self : LRUKReplacer} {frameId : FrameId} {node : LRUKNode}

theorem Represents.listed_of_some (represents : self.Represents)
 (known : self.nodeStore frameId = some node) : (node.pos, frameId) ∈ self.listed := by
 rcases lt_or_eq_of_le (represents.kept frameId node known) with short | full
 · exact mem_append_left _ (represents.less frameId node known short)
 · exact mem_append_right _ (represents.more frameId node known full)

theorem Represents.entry_unique (represents : self.Represents) {entry other : Iterator × FrameId}
 (first : entry ∈ self.listed) (second : other ∈ self.listed) (same : entry.2 = other.2) :
 entry = other :=
 inj_on_of_nodup_map represents.once first second same

variable {other : LRUKReplacer}

theorem oldest_of_same
 (same : other.nodeStore frameId =
 self.nodeStore frameId) : other.oldest frameId = self.oldest frameId := by
 unfold oldest
 rw [same]

theorem counted_of_same
 (same : other.nodeStore frameId =
 self.nodeStore frameId) : other.counted frameId = self.counted frameId := by
 unfold counted
 rw [same]

theorem counted_of_some (known : self.nodeStore frameId = some node) :
 self.counted frameId = node.isEvictable := by
 rw [counted, known]
 rfl

theorem insertMoreK_perm (self : LRUKReplacer) (entry : Iterator × FrameId)
 (frames : List (Iterator × FrameId)) :
 (self.insertMoreK entry frames).Perm (entry :: frames) := by
 refine perm_middle.trans ?_
 rw [takeWhile_append_dropWhile]

theorem insertMoreK_ordered (self : LRUKReplacer) (entry : Iterator × FrameId)
 {frames : List (Iterator × FrameId)}
 (ordered : frames.Pairwise fun left right => self.oldest left.2 ≤ self.oldest right.2) :
 (self.insertMoreK entry frames).Pairwise fun left right =>
  self.oldest left.2 ≤ self.oldest right.2 := by
 apply SortedCut.pairwise_insert _ ordered
 · grind
 · intro other _ passed
   simpa using passed
 · grind

variable {nodes : List (Iterator × FrameId)}

theorem ordered_of_same
 (ordered : nodes.Pairwise fun left right => self.oldest left.2 ≤ self.oldest right.2)
 (same : ∀ entry ∈ nodes, other.oldest entry.2 = self.oldest entry.2) :
 nodes.Pairwise fun left right => other.oldest left.2 ≤ other.oldest right.2 := by
 refine ordered.imp_of_mem fun {left right} inLeft inRight before => ?_
 grind

theorem Linked.fresh_not_mem (linked : self.Linked) : self.fresh ∉ self.listed.map fst := by
 intro again
 obtain ⟨entry, member, same⟩ := mem_map.mp again
 have bound := linked.unused entry member
 simp_all

/-! ### Lists without one frame -/

/-- Both lists after the node of a frame has been erased. -/
structure Without (state : LRUKReplacer) (frameId : FrameId) (node : LRUKNode)
 (less more : List (Iterator × FrameId)) : Prop where
 perm : state.listed.Perm ((node.pos, frameId) :: (less ++ more))
 inLess : ∀ entry ∈ state.nodeLessK, entry.2 ≠ frameId → entry ∈ less
 inMore : ∀ entry ∈ state.nodeMoreK, entry.2 ≠ frameId → entry ∈ more
 sublist : more.Sublist state.nodeMoreK

theorem Represents.mem_erase_of_other (represents : self.Represents)
 (known : self.nodeStore frameId = some node) (inside : ∀ entry ∈ nodes, entry ∈ self.listed) :
 ∀ entry ∈ nodes, entry.2 ≠ frameId → entry ∈ RecencyList.erase nodes node.pos := by
 intro entry member different
 refine mem_erase.mpr ⟨member, fun same => different ?_⟩
 have equal : entry = (node.pos, frameId) :=
  inj_on_of_nodup_map represents.identities (inside entry member)
   (represents.listed_of_some known) same
 rw [equal]

theorem Represents.erase_less (represents : self.Represents)
 (known : self.nodeStore frameId = some node) (member : (node.pos, frameId) ∈ self.nodeLessK) :
 ∃ less, erase? self.nodeLessK node.pos = some less ∧
  self.Without frameId node less self.nodeMoreK := by
 have identities : (self.nodeLessK.map fst).Nodup :=
  represents.identities.sublist ((sublist_append_left _ _).map fst)
 refine ⟨_, erase?_of_lookup (lookup_of_mem identities member), ?_, ?_, ?_, ?_⟩
 · exact (perm_cons_erase identities member).append_right _
 · exact represents.mem_erase_of_other known fun _ => mem_append_left _
 · intro entry inside _
   exact inside
 · exact List.Sublist.refl _

theorem Represents.erase_more (represents : self.Represents)
 (known : self.nodeStore frameId = some node) (member : (node.pos, frameId) ∈ self.nodeMoreK) :
 ∃ more, erase? self.nodeMoreK node.pos = some more ∧
  self.Without frameId node self.nodeLessK more := by
 have identities : (self.nodeMoreK.map fst).Nodup :=
  represents.identities.sublist ((sublist_append_right _ _).map fst)
 refine ⟨_, erase?_of_lookup (lookup_of_mem identities member), ?_, ?_, ?_, ?_⟩
 · exact ((perm_cons_erase identities member).append_left _).trans perm_middle
 · intro entry inside _
   exact inside
 · exact represents.mem_erase_of_other known fun _ => mem_append_right _
 · exact filter_sublist

section Without

variable {less more : List (Iterator × FrameId)}

variable (without : self.Without frameId node less more)
include without

theorem Without.frames_perm : self.frames.Perm (frameId :: (less ++ more).map snd) :=
 without.perm.map snd

theorem Without.absent (represents : self.Represents) : frameId ∉ (less ++ more).map snd :=
 (nodup_cons.mp (without.frames_perm.nodup_iff.mp represents.once)).1

theorem Without.once (represents : self.Represents) : ((less ++ more).map snd).Nodup :=
 (nodup_cons.mp (without.frames_perm.nodup_iff.mp represents.once)).2

theorem Without.identities (represents : self.Represents) : ((less ++ more).map fst).Nodup :=
 (nodup_cons.mp ((without.perm.map fst).nodup_iff.mp represents.identities)).2

theorem Without.listed {entry : Iterator × FrameId} (member : entry ∈ less ++ more) :
 entry ∈ self.listed :=
 without.perm.mem_iff.mpr (mem_cons_of_mem _ member)

variable (represents : self.Represents)
include represents

theorem Without.tracked {other : FrameId} (different : other ≠ frameId) :
 other ∈ (less ++ more).map snd ↔ (self.nodeStore other).isSome = true := by
 rw [← represents.tracked, without.frames_perm.mem_iff, mem_cons]
 exact (or_iff_right different).symm

theorem Without.ordered {next : LRUKReplacer}
 (others : ∀ other, other ≠ frameId → next.nodeStore other = self.nodeStore other) :
 more.Pairwise fun left right => next.oldest left.2 ≤ next.oldest right.2 := by
 refine ordered_of_same (represents.ordered.sublist without.sublist) fun entry inside => ?_
 refine oldest_of_same (others _ fun here => ?_)
 refine without.absent represents (here ▸ mem_map_of_mem ?_)
 exact mem_append_right _ inside

theorem Without.size (known : self.nodeStore frameId = some node) (after : FrameId → Bool)
 (others : ∀ other, other ≠ frameId → after other = self.counted other) :
 ((less ++ more).map snd).countP after + node.isEvictable.toNat = self.currSize := by
 rw [represents.size, without.frames_perm.countP_eq, countP_cons, counted_of_some known,
  countP_congr_of_not_mem (without.absent represents) others]
 cases node.isEvictable <;> rfl

end Without

/-! ### The steps -/

theorem forall_update {store : FrameId → Option LRUKNode} {after : LRUKNode}
 {property : FrameId → LRUKNode → Prop} (own : property frameId after)
 (others : ∀ other stored, store other = some stored → property other stored) :
 ∀ other stored, update store frameId (some after) other = some stored →
  property other stored := by
 intro other stored found
 by_cases same : other = frameId
 · simp_all
 · simp_all

theorem Linked.rewrite (linked : self.Linked) (known : self.nodeStore frameId = some node)
 (after : LRUKNode) (pos : after.pos = node.pos) (fid : after.fid = node.fid)
 (k : after.k = node.k) (kept : after.history.length ≤ self.k)
 (less : after.history.length < self.k → node.history.length < self.k)
 (more : after.history.length = self.k → after.history = node.history)
 {now size : ℕ} (counts : size + node.isEvictable.toNat =
  self.currSize + after.isEvictable.toNat) :
 Linked { self with
  currentTimestamp := now
  nodeStore := update self.nodeStore frameId (some after)
  currSize := size } := by
 refine ⟨⟨linked.identities, linked.once, ?_, ?_, ?_, ?_, ?_, ?_⟩, ?_, linked.unused⟩
 · intro other
   refine (linked.tracked other).trans ?_
   by_cases same : other = frameId
   · simp [same, known]
   · simp [update_of_ne same]
 · exact forall_update kept linked.kept
 · exact forall_update (fun short => pos ▸ linked.less frameId node known (less short)) linked.less
 · refine forall_update (fun full => ?_) linked.more
   rw [pos]
   exact linked.more frameId node known (more full ▸ full)
 · -- A frame of this list has a full history, which the rewriting leaves alone.
   refine ordered_of_same linked.ordered fun entry inside => ?_
   by_cases here : entry.2 = frameId
   · have full : after.history = node.history := by
      by_cases short : after.history.length < self.k
      · have inLess := linked.less frameId node known (less short)
        have again := linked.entry_unique (mem_append_right _ inside)
         (mem_append_left _ inLess) here
        have disjoint := (nodup_append.mp (List.Nodup.of_map _ linked.once)).2.2
        grind
      · exact more (by omega)
     rw [here, oldest, oldest]
     simp_all
   · exact oldest_of_same (update_of_ne here ..)
 · have member : frameId ∈ self.frames := by
    rw [linked.tracked, known]
    rfl
   have update := countP_update linked.once self.counted
    (fun other => (update self.nodeStore frameId (some after) other).any
     LRUKNode.isEvictable) member (fun other different => by
      rw [update_of_ne different]
      rfl)
   rw [counted_of_some known, update_self, Option.any_some, ← linked.size] at update
   change size = self.frames.countP fun other =>
    (Function.update self.nodeStore frameId (some after) other).any LRUKNode.isEvictable
   omega
 · have own := linked.own frameId node known
   exact forall_update ⟨fid.trans own.1, k.trans own.2⟩
    linked.own

theorem Linked.forget (linked : self.Linked) (known : self.nodeStore frameId = some node)
 (evictable : node.isEvictable = true) {less more : List (Iterator × FrameId)}
 (without : self.Without frameId node less more) :
 (self.forget frameId less more).Linked := by
 have represents := linked.toRepresents
 have stored : ∀ {other : FrameId} {found : LRUKNode},
  update self.nodeStore frameId none other = some found →
   other ≠ frameId ∧ self.nodeStore other = some found := by
  intro other found same
  by_cases here : other = frameId
  · rw [here, update_self] at same
    cases same
  · simp_all
 refine ⟨⟨without.identities represents, without.once represents, ?_, ?_, ?_, ?_, ?_, ?_⟩, ?_, ?_⟩
 · intro other
   by_cases here : other = frameId
   · rw [here]
     refine iff_of_false (without.absent represents) ?_
     simp [LRUKReplacer.forget]
   · refine (without.tracked represents here).trans ?_
     simp [LRUKReplacer.forget, update_of_ne here]
 · intro other found same
   exact linked.kept other found (stored same).2
 · intro other found same short
   exact without.inLess _ (linked.less other found (stored same).2 short) (stored same).1
 · intro other found same full
   exact without.inMore _ (linked.more other found (stored same).2 full) (stored same).1
 · exact without.ordered represents fun other different => update_of_ne different ..
 · have size := without.size represents known (self.forget frameId less more).counted
    (fun other different => counted_of_same (update_of_ne different ..))
   rw [evictable, Bool.toNat_true] at size
   exact Nat.sub_eq_of_eq_add size.symm
 · intro other found same
   exact linked.own other found (stored same).2
 · intro entry member
   exact linked.unused entry (without.listed member)

/-! ### Frames with a full history -/

/-- The access is recorded, and the frame goes to its place in `node_more_k_`. -/
def promoted (self : LRUKReplacer) (frameId : FrameId) (after : LRUKNode)
 (less more : List (Iterator × FrameId)) (now : ℕ) : LRUKReplacer :=
 promote { self with
  currentTimestamp := now
  nodeStore := update self.nodeStore frameId (some after) } frameId after less more

section Promoted

variable {after : LRUKNode} {less more : List (Iterator × FrameId)} {now : ℕ}

theorem promoted_nodeStore : (self.promoted frameId after less more now).nodeStore =
 update self.nodeStore frameId (some { after with pos := self.fresh }) :=
 update_idem ..

theorem promoted_nodeStore_other {other : FrameId} (different : other ≠ frameId) :
 (self.promoted frameId after less more now).nodeStore other = self.nodeStore other := by
 rw [promoted_nodeStore, update_of_ne different]

theorem promoted_more_perm :
 (self.promoted frameId after less more now).nodeMoreK.Perm ((self.fresh, frameId) :: more) :=
 insertMoreK_perm ..

theorem promoted_perm : (self.promoted frameId after less more now).listed.Perm
 ((self.fresh, frameId) :: (less ++ more)) :=
 (promoted_more_perm.append_left less).trans perm_middle

theorem promoted_frames_perm : (self.promoted frameId after less more now).frames.Perm
 (frameId :: (less ++ more).map snd) :=
 promoted_perm.map snd

theorem promoted_ordered (represents : self.Represents)
 (without : self.Without frameId node less more) :
 (self.promoted frameId after less more now).nodeMoreK.Pairwise fun left right =>
  (self.promoted frameId after less more now).oldest left.2 ≤
   (self.promoted frameId after less more now).oldest right.2 := by
 unfold promoted
 generalize touched : ({ self with
  currentTimestamp := now
  nodeStore := update self.nodeStore frameId (some after) } : LRUKReplacer) = access
 have store : access.nodeStore = update self.nodeStore frameId (some after) := by
  rw [← touched]
 refine ordered_of_same (insertMoreK_ordered access _ (without.ordered represents ?_)) ?_
 · simp_all
 · intro entry _
   rw [oldest, oldest, promote, store]
   dsimp only
   by_cases here : entry.2 = frameId
   · rw [here, update_self, update_self]
     rfl
   · rw [update_of_ne here]

theorem promoted_size (represents : self.Represents)
 (known : self.nodeStore frameId = some node) (flag : after.isEvictable = node.isEvictable)
 (without : self.Without frameId node less more) :
 (self.promoted frameId after less more now).frames.countP
  (self.promoted frameId after less more now).counted = self.currSize := by
 have size := without.size represents known (self.promoted frameId after less more now).counted
  fun other different => counted_of_same (promoted_nodeStore_other different)
 have own : (self.promoted frameId after less more now).counted frameId = node.isEvictable := by
  rw [counted, promoted_nodeStore, update_self, ← flag]
  rfl
 rw [promoted_frames_perm.countP_eq, countP_cons, own, ← size]
 cases node.isEvictable <;> rfl

theorem Linked.promote (linked : self.Linked) (known : self.nodeStore frameId = some node)
 (fid : after.fid = node.fid) (k : after.k = node.k)
 (flag : after.isEvictable = node.isEvictable) (full : after.history.length = self.k)
 (without : self.Without frameId node less more) :
 (self.promoted frameId after less more now).Linked := by
 have represents := linked.toRepresents
 refine ⟨⟨?_, ?_, ?_, ?_, ?_, ?_, promoted_ordered represents without,
  (promoted_size represents known flag without).symm⟩, ?_, ?_⟩
 · refine (promoted_perm.map fst).nodup_iff.mpr (nodup_cons.mpr ⟨?_, ?_⟩)
   · intro again
     obtain ⟨entry, member, same⟩ := mem_map.mp again
     exact linked.fresh_not_mem (mem_map.mpr ⟨entry, without.listed member, same⟩)
   · exact without.identities represents
 · exact promoted_frames_perm.nodup_iff.mpr
    (nodup_cons.mpr ⟨without.absent represents, without.once represents⟩)
 · intro other
   rw [promoted_frames_perm.mem_iff, mem_cons, promoted_nodeStore]
   by_cases here : other = frameId
   · simp [here]
   · rw [or_iff_right here, update_of_ne here]
     exact without.tracked represents here
 · rw [promoted_nodeStore]
   exact forall_update full.le linked.kept
 · intro other found same short
   have different : other ≠ frameId := by
    intro here
    rw [promoted_nodeStore, here, update_self] at same
    cases same
    exact Nat.ne_of_lt short full
   rw [promoted_nodeStore_other different] at same
   exact without.inLess _ (linked.less other found same short) different
 · intro other found same long
   refine promoted_more_perm.mem_iff.mpr (mem_cons.mpr ?_)
   by_cases here : other = frameId
   · rw [promoted_nodeStore, here, update_self] at same
     cases same
     exact .inl (by rw [here])
   · rw [promoted_nodeStore_other here] at same
     exact .inr (without.inMore _ (linked.more other found same long) here)
 · have own := linked.own frameId node known
   rw [promoted_nodeStore]
   exact forall_update ⟨fid.trans own.1, k.trans own.2⟩ linked.own
 · intro entry member
   rcases mem_cons.mp (promoted_perm.mem_iff.mp member) with new | old
   · rw [new]
     exact Nat.lt_succ_self _
   · exact Nat.lt_succ_of_lt (linked.unused entry (without.listed old))

end Promoted

theorem Linked.insert (linked : self.Linked) (two_le : 2 ≤ self.k)
 (unknown : self.nodeStore frameId = none) (now stamp : ℕ) :
 Linked { self with
  currentTimestamp := now
  nodeLessK := (self.fresh, frameId) :: self.nodeLessK
  nodeStore := update self.nodeStore frameId
   (some (LRUKNode.recordAccess ⟨[], frameId, self.k, true, self.fresh⟩ stamp))
  currSize := self.currSize + 1
  fresh := self.fresh + 1 } := by
 have absent : frameId ∉ self.frames := by
  rw [linked.tracked, unknown]
  exact Bool.false_ne_true
 have first : (LRUKNode.recordAccess ⟨[], frameId, self.k, true, self.fresh⟩ stamp).history =
  [stamp] := by
  simp [LRUKNode.recordAccess]
 refine ⟨⟨?_, ?_, ?_, ?_, ?_, ?_, ?_, ?_⟩, ?_, ?_⟩
 · exact nodup_cons.mpr ⟨linked.fresh_not_mem, linked.identities⟩
 · exact nodup_cons.mpr ⟨absent, linked.once⟩
 · intro other
   change other ∈ frameId :: self.frames ↔ _
   rw [mem_cons, linked.tracked]
   by_cases same : other = frameId
   · simp [same]
   · simp [same]
 · refine forall_update ?_ linked.kept
   rw [first]
   exact le_of_succ_le two_le
 · exact forall_update (fun _ => mem_cons_self) fun other stored found short =>
    mem_cons_of_mem _ (linked.less other stored found short)
 · refine forall_update (fun full => ?_) linked.more
   grind
 · refine ordered_of_same linked.ordered fun entry inside => ?_
   refine oldest_of_same (update_of_ne (fun here => ?_) ..)
   exact absent (here ▸ mem_map_of_mem (mem_append_right _ inside))
 · change self.currSize + 1 = (frameId :: self.frames).countP fun other =>
    (update self.nodeStore frameId _ other).any LRUKNode.isEvictable
   have rest : (self.frames.countP fun other =>
    (update self.nodeStore frameId (some (LRUKNode.recordAccess
     ⟨[], frameId, self.k, true, self.fresh⟩ stamp)) other).any LRUKNode.isEvictable) =
    self.frames.countP self.counted :=
    countP_congr_of_not_mem absent fun other different => by
     rw [update_of_ne different]
     rfl
   rw [countP_cons, update_self, rest, linked.size]
   rfl
 · exact forall_update ⟨rfl, rfl⟩ linked.own
 · intro entry member
   rcases mem_cons.mp member with new | old
   · rw [new]
     exact lt_succ_self _
   · exact lt_succ_of_lt (linked.unused entry old)

/-! ### The calls -/

/-- A defined call after which the replacer is as it has to be. -/
def Keeps (self : LRUKReplacer) (after : Option LRUKReplacer) : Prop :=
 ∃ next, after = some next ∧ next.Linked ∧ next.k = self.k

theorem length_recordAccess (node : LRUKNode) (positive : 0 < node.k) (stamp : ℕ) :
 (node.recordAccess stamp).history.length =
  if node.history.length < node.k then node.history.length + 1
  else node.history.length := by
 unfold LRUKNode.recordAccess
 split
 · rw [if_neg (by omega), length_append, length_tail, length_singleton]
   omega
 · rw [if_pos (by omega), length_append, length_singleton]

section

variable (linked : self.Linked)
include linked

theorem Linked.recordAccess (two_le : 2 ≤ self.k) (frameId : FrameId) :
 self.Keeps ((self.recordAccess frameId).after self) := by
 unfold LRUKReplacer.recordAccess
 by_cases large : frameId > largestFrame self.replacerSize
 · rw [if_pos large]
   exact ⟨self, rfl, linked, rfl⟩
 · rw [if_neg large]
   cases found : self.nodeStore frameId with
   | none => exact ⟨_, rfl, linked.insert two_le found _ _, rfl⟩
   | some node =>
    have own := linked.own frameId node found
    have bound := linked.kept frameId node found
    have length := length_recordAccess node (by omega) (self.currentTimestamp + 1)
    rw [own.2] at length
    let access := node.recordAccess (self.currentTimestamp + 1)
    dsimp only
    by_cases atK : node.history.length + 1 = self.k
    · rw [if_pos atK]
      obtain ⟨less, erased, without⟩ :=
       linked.erase_less found (linked.less frameId node found (by omega))
      rw [erased]
      refine ⟨_, rfl, linked.promote found rfl rfl rfl ?_ without, rfl⟩
      rw [length, if_pos (by omega), atK]
    · rw [if_neg atK]
      by_cases more : node.history.length ≥ self.k
      · rw [if_pos more]
        obtain ⟨kept, erased, without⟩ :=
         linked.erase_more found (linked.more frameId node found (by omega))
        rw [erased]
        refine ⟨_, rfl, linked.promote found rfl rfl rfl ?_ without, rfl⟩
        rw [length, if_neg (by omega)]
        omega
      · rw [if_neg more]
        rw [if_pos (by omega)] at length
        refine ⟨_, rfl, linked.rewrite found access rfl rfl rfl ?_ ?_ ?_ rfl, rfl⟩
        all_goals
         grind

theorem Linked.setEvictable (frameId : FrameId) (flag : Bool) :
 self.Keeps ((self.setEvictable frameId flag).after self) := by
 unfold LRUKReplacer.setEvictable
 by_cases large : frameId > largestFrame self.replacerSize
 · rw [if_pos large]
   exact ⟨self, rfl, linked, rfl⟩
 · rw [if_neg large]
   cases found : self.nodeStore frameId with
   | none => exact ⟨self, rfl, linked, rfl⟩
   | some node =>
    refine ⟨_, rfl, linked.rewrite found { node with isEvictable := flag } rfl rfl rfl
     (linked.kept frameId node found) id (fun _ => rfl) ?_, rfl⟩
    -- An evictable frame is counted, so the subtraction is exact.
    have counts : node.isEvictable.toNat ≤ self.currSize := by
     rw [linked.size]
     cases evictable : node.isEvictable with
     | false => exact zero_le _
     | true =>
      refine countP_pos_iff.mpr ⟨frameId, ?_, (counted_of_some found).trans evictable⟩
      rw [linked.tracked, found]
      rfl
    grind

theorem Linked.remove (frameId : FrameId) : self.Keeps ((self.remove frameId).after self) := by
 unfold LRUKReplacer.remove
 cases found : self.nodeStore frameId with
 | none => exact ⟨self, rfl, linked, rfl⟩
 | some node =>
  dsimp only
  cases evictable : node.isEvictable with
  | false => exact ⟨self, rfl, linked, rfl⟩
  | true =>
   rw [Bool.not_true, if_neg Bool.false_ne_true]
   by_cases short : node.history.length < self.k
   · rw [if_pos short]
     obtain ⟨less, erased, without⟩ :=
      linked.erase_less found (linked.less frameId node found short)
     rw [erased]
     exact ⟨_, rfl, linked.forget found evictable without, rfl⟩
   · rw [if_neg short]
     have bound := linked.kept frameId node found
     obtain ⟨more, erased, without⟩ :=
      linked.erase_more found (linked.more frameId node found (by omega))
     rw [erased]
     exact ⟨_, rfl, linked.forget found evictable without, rfl⟩

theorem Linked.evictable_of_findSome (inside : ∀ entry ∈ nodes, entry ∈ self.listed)
 (found : nodes.findSome? self.evictableNode = some node) :
 self.nodeStore node.fid = some node ∧ node.isEvictable = true ∧
  (node.pos, node.fid) ∈ nodes := by
 obtain ⟨entry, member, same⟩ := exists_of_findSome?_eq_some found
 obtain ⟨known, flag⟩ := Option.filter_eq_some_iff.mp same
 have fid := (linked.own entry.2 node known).1
 have own : entry = (node.pos, node.fid) := by
  refine linked.entry_unique (inside entry member) (linked.listed_of_some ?_) fid.symm
  rw [fid]
  exact known
 grind

theorem Linked.evict : self.Keeps (self.evict.after self) := by
 unfold LRUKReplacer.evict
 by_cases empty : self.currSize = 0
 · rw [if_pos empty]
   exact ⟨self, rfl, linked, rfl⟩
 · rw [if_neg empty]
   cases early : self.nodeLessK.reverse.findSome? self.evictableNode with
   | some node =>
    obtain ⟨known, flag, member⟩ := linked.evictable_of_findSome
     (fun _ inside => mem_append_left _ (mem_reverse.mp inside)) early
    obtain ⟨less, erased, without⟩ := linked.erase_less known (mem_reverse.mp member)
    dsimp only
    rw [erased]
    exact ⟨_, rfl, linked.forget known flag without, rfl⟩
   | none =>
    cases late : self.nodeMoreK.findSome? self.evictableNode with
    | none => exact ⟨self, rfl, linked, rfl⟩
    | some node =>
     obtain ⟨known, flag, member⟩ := linked.evictable_of_findSome
      (fun _ inside => mem_append_right _ inside) late
     obtain ⟨more, erased, without⟩ := linked.erase_more known member
     dsimp only
     rw [erased]
     exact ⟨_, rfl, linked.forget known flag without, rfl⟩

theorem Linked.call (two_le : 2 ≤ self.k) (call : Call) : self.Keeps (self.call call) := by
 cases call with
 | recordAccess frameId => exact linked.recordAccess two_le frameId
 | setEvictable frameId flag => exact linked.setEvictable frameId flag
 | remove frameId => exact linked.remove frameId
 | evict => exact linked.evict

theorem Linked.run (two_le : 2 ≤ self.k) (calls : List Call) : self.Keeps (self.run calls) := by
 induction calls generalizing self with
 | nil => exact ⟨self, rfl, linked, rfl⟩
 | cons call rest ih =>
  obtain ⟨next, called, nextLinked, k⟩ := linked.call two_le call
  obtain ⟨last, ran, lastLinked, lastK⟩ := ih nextLinked (k ▸ two_le)
  refine ⟨last, ?_, lastLinked, lastK.trans k⟩
  rw [LRUKReplacer.run, foldlM_cons, called]
  exact ran

end

/-! ### Small `k` -/

theorem run_untracked (numFrames k : ℕ) {calls : List Call}
 (none : ∀ frameId, .recordAccess frameId ∈ calls → largestFrame numFrames < frameId) :
 (new numFrames k).run calls = some (new numFrames k) := by
 induction calls with
 | nil => rfl
 | cons call rest ih =>
  have same : (new numFrames k).call call = some (new numFrames k) := by
   cases call with
   | recordAccess frameId =>
    have large : (new numFrames k).recordAccess frameId = .thrown :=
     if_pos (none frameId mem_cons_self)
    rw [LRUKReplacer.call, large]
    rfl
   | setEvictable frameId flag =>
    rw [LRUKReplacer.call, LRUKReplacer.setEvictable]
    split <;> rfl
   | remove frameId => rfl
   | evict => rfl
  rw [LRUKReplacer.run, foldlM_cons, same]
  exact ih fun frameId member => none frameId (mem_cons_of_mem _ member)

theorem not_represents_first {numFrames : ℕ} {state : LRUKReplacer}
 (valid : ¬ largestFrame numFrames < frameId)
 (recorded : (new numFrames 1).call (.recordAccess frameId) = some state) :
 ¬ state.Represents := by
 intro represents
 rw [LRUKReplacer.call, LRUKReplacer.recordAccess,
  if_neg (show ¬ frameId > largestFrame (new numFrames 1).replacerSize from valid)] at recorded
 cases recorded
 have stored := represents.more frameId _ (update_self ..) rfl
 cases stored

/-- The lists, the positions and the size are right in every sequence of calls, and every
`erase` is that of the list with the node, exactly when `k` is at least 2 or no frame is
ever tracked. -/
theorem maintained_iff (numFrames : ℕ) {k : ℕ} (positive : 1 ≤ k) (calls : List Call) :
 Maintained numFrames k calls ↔
  2 ≤ k ∨ ∀ frameId, .recordAccess frameId ∈ calls → largestFrame numFrames < frameId := by
 constructor
 · intro maintained
   by_cases two_le : 2 ≤ k
   · exact .inl two_le
   · have one : k = 1 := by omega
     subst k
     right
     -- Up to the first access of a valid frame nothing has been tracked.
     induction calls using List.reverseRecOn with
     | nil => intro frameId member; cases member
     | append_singleton calls call ih =>
      have earlier := ih fun before isPrefix =>
       maintained before (isPrefix.trans (prefix_append ..))
      intro frameId member
      rcases mem_append.mp member with old | last
      · exact earlier frameId old
      · by_contra valid
        obtain ⟨state, ran, represents⟩ := maintained _ (prefix_refl _)
        rw [LRUKReplacer.run, foldlM_append] at ran
        have untracked := run_untracked numFrames 1 earlier
        rw [LRUKReplacer.run] at untracked
        rw [untracked, ← mem_singleton.mp last] at ran
        have recorded : (new numFrames 1).call (.recordAccess frameId) = some state := by
         simpa using ran
        exact not_represents_first valid recorded represents
 · intro condition before isPrefix
   rcases condition with two_le | none
   · obtain ⟨state, ran, linked, -⟩ := (new_linked numFrames k).run two_le before
     exact ⟨state, ran, linked.toRepresents⟩
   · refine ⟨_, run_untracked numFrames k fun frameId member => ?_,
      (new_linked numFrames k).toRepresents⟩
     exact none frameId (isPrefix.subset member)

theorem maintained_iff_two :
 Maintained 3 2 [.recordAccess 1, .recordAccess 2, .recordAccess 1, .evict, .remove 1] :=
 (maintained_iff 3 (by decide) _).mpr (.inl (by decide))

/-- With `k = 1` the frame of the first access is in the list of the short histories, and
the next access erases its node through the other list. -/
theorem not_maintained_one : ¬ Maintained 7 1 [.recordAccess 0] ∧
 (new 7 1).run [.recordAccess 0, .recordAccess 0] = none := by
 constructor
 · intro maintained
   obtain ⟨state, recorded, represents⟩ := maintained _ (prefix_refl _)
   have valid : ¬ largestFrame 7 < 0 := by decide
   refine not_represents_first valid ?_ represents
   simpa [LRUKReplacer.run] using recorded
 · have undefined : ((new 7 1).run [.recordAccess 0, .recordAccess 0]).isNone = true := by decide
   exact Option.isNone_iff_eq_none.mp undefined

end LRUKReplacer

end MyNotes.Cmu15445.LruKIterators
