/-
The LRU-K replacer of project 1, with the corrected `Remove` of the notes.

An iterator `pos_` into one of the two lists names the list node of its frame, so
erasing it is erasing the frame.  A throw is `none`.
-/

import MyNotes.Library.NodupList

namespace MyNotes.Cmu15445

open Library.NodupList Function List Option

abbrev FrameId := ℕ

structure LRUKNode where
 history : List ℕ
 fid : FrameId
 k : ℕ
 isEvictable : Bool

namespace LRUKNode

def new (fid : FrameId) (k : ℕ) (isEvictable : Bool) : LRUKNode := ⟨[], fid, k, isEvictable⟩

/-- At most `k` timestamps are kept, the oldest in front. -/
def recordAccess (self : LRUKNode) (timestamp : ℕ) : LRUKNode :=
 let history := if self.history.length ≥ self.k then self.history.tail else self.history
 { self with history := history ++ [timestamp] }

end LRUKNode

structure LRUKReplacer where
 nodeStore : FrameId → Option LRUKNode
 nodeLessK : List FrameId
 nodeMoreK : List FrameId
 currentTimestamp : ℕ
 currSize : ℕ
 replacerSize : ℕ
 k : ℕ

namespace LRUKReplacer

def new (numFrames k : ℕ) : LRUKReplacer :=
 { nodeStore := fun _ => none
   nodeLessK := []
   nodeMoreK := []
   currentTimestamp := 0
   currSize := 0
   replacerSize := numFrames
   k := k }

/-- The flag of a frame; an unknown frame has none. -/
def status (self : LRUKReplacer) (frameId : FrameId) : Option Bool :=
 (self.nodeStore frameId).map LRUKNode.isEvictable

/-- `history_.front()` of a frame. -/
def oldest (self : LRUKReplacer) (frameId : FrameId) : ℕ :=
 ((self.nodeStore frameId).bind fun node => node.history.head?).getD 0

/-- The insertion at `upper_bound`: before the first frame with a later stamp. -/
def insertMoreK (self : LRUKReplacer) (frameId : FrameId) (frames : List FrameId) :
 List FrameId :=
 let notLater : FrameId → Bool := fun a => !decide (self.oldest a > self.oldest frameId)
 frames.takeWhile notLater ++ frameId :: frames.dropWhile notLater

def recordAccess (self : LRUKReplacer) (frameId : FrameId) : Option LRUKReplacer :=
 if frameId > self.replacerSize then none
 else
  let now := self.currentTimestamp + 1
  match self.nodeStore frameId with
  | none =>
   some { self with
    currentTimestamp := now
    nodeLessK := frameId :: self.nodeLessK
    nodeStore := update self.nodeStore frameId
     (some ((LRUKNode.new frameId self.k true).recordAccess now))
    currSize := self.currSize + 1 }
  | some node =>
   let self := { self with
    currentTimestamp := now
    nodeStore := update self.nodeStore frameId (some (node.recordAccess now)) }
   if node.history.length = self.k - 1 then
    some { self with
     nodeLessK := self.nodeLessK.erase frameId
     nodeMoreK := self.insertMoreK frameId self.nodeMoreK }
   else if node.history.length ≥ self.k then
    some { self with
     nodeMoreK := self.insertMoreK frameId (self.nodeMoreK.erase frameId) }
   else some self

def setEvictable (self : LRUKReplacer) (frameId : FrameId) (setEvictable : Bool) :
 Option LRUKReplacer :=
 if frameId > self.replacerSize then none
 else
  match self.nodeStore frameId with
  | none => some self
  | some node =>
   let currSize := if node.isEvictable && !setEvictable then self.currSize - 1
    else self.currSize
   let currSize := if !node.isEvictable && setEvictable then currSize + 1 else currSize
   some { self with
    nodeStore := update self.nodeStore frameId
     (some { node with isEvictable := setEvictable })
    currSize := currSize }

section

variable (self : LRUKReplacer)

def remove (frameId : FrameId) : Option LRUKReplacer :=
 match self.nodeStore frameId with
 | none => some self
 | some node =>
  if !node.isEvictable then none
  else
   let self := { self with
    nodeStore := update self.nodeStore frameId none
    currSize := self.currSize - 1 }
   if node.history.length < self.k then
    some { self with nodeLessK := self.nodeLessK.erase frameId }
   else some { self with nodeMoreK := self.nodeMoreK.erase frameId }

/-- `node_store_.at(*it)`, when it may be evicted. -/
def evictableNode (frameId : FrameId) : Option LRUKNode :=
 (self.nodeStore frameId).filter LRUKNode.isEvictable

/-- `Evict`: the frame with fewer than `k` accesses that came first, else the one
whose `k`-th last access is the oldest. -/
def evict : Option (FrameId × LRUKReplacer) :=
 if self.currSize = 0 then none
 else
  match self.nodeLessK.reverse.findSome? self.evictableNode with
  | some curNode =>
   some (curNode.fid, { self with
    nodeStore := update self.nodeStore curNode.fid none
    nodeLessK := self.nodeLessK.erase curNode.fid
    currSize := self.currSize - 1 })
  | none =>
   match self.nodeMoreK.findSome? self.evictableNode with
   | some curNode =>
    some (curNode.fid, { self with
     nodeStore := update self.nodeStore curNode.fid none
     nodeMoreK := self.nodeMoreK.erase curNode.fid
     currSize := self.currSize - 1 })
   | none => none

def size : ℕ := self.currSize

end

/-! ### The invariant -/

def counted (self : LRUKReplacer) (frameId : FrameId) : Bool := self.status frameId == some true

def frames (self : LRUKReplacer) : List FrameId := self.nodeLessK ++ self.nodeMoreK

/-- Each tracked frame is in exactly one list, chosen by the length of its history,
and the size counts the evictable ones. -/
structure WellFormed (state : LRUKReplacer) : Prop where
 nodup : state.frames.Nodup
 tracked : ∀ frameId, frameId ∈ state.frames ↔ (state.nodeStore frameId).isSome = true
 placed : ∀ frameId node, state.nodeStore frameId = some node →
  node.fid = frameId ∧ node.k = state.k ∧
   (frameId ∈ state.nodeLessK ↔ node.history.length < state.k)
 size : state.currSize = state.frames.countP state.counted

theorem new_wellFormed (numFrames k : ℕ) : (new numFrames k).WellFormed where
 nodup := nodup_nil
 tracked := by
  intro frameId
  simp [frames, new]
 placed := by
  intro frameId node impossible
  cases impossible
 size := rfl

variable {self : LRUKReplacer}

theorem status_update (self : LRUKReplacer) (store : FrameId → Option LRUKNode)
 (frameId other : FrameId) (node : Option LRUKNode)
 (updated : store = update self.nodeStore frameId node) :
 (store other).map LRUKNode.isEvictable =
  if other = frameId then node.map LRUKNode.isEvictable else self.status other := by
 rw [updated]
 by_cases same : other = frameId
 · rw [if_pos same, same, update_self]
 · rw [if_neg same, update_of_ne same]
   rfl

theorem insertMoreK_perm (self : LRUKReplacer) (frameId : FrameId) (frames : List FrameId) :
 (self.insertMoreK frameId frames).Perm (frameId :: frames) := by
 refine perm_middle.trans ?_
 rw [takeWhile_append_dropWhile]

theorem recordAccess_length (node : LRUKNode) (timestamp : ℕ) (positive : 0 < node.k) :
 (node.recordAccess timestamp).history.length =
  if node.history.length < node.k then node.history.length + 1
  else node.history.length := by
 unfold LRUKNode.recordAccess
 split
 · rw [if_neg (by omega), length_append, length_tail, length_singleton]
   omega
 · rw [if_pos (by omega), length_append, length_singleton]

structure Evolves (old new : LRUKReplacer) (status : FrameId → Option Bool) : Prop where
 wellFormed : new.WellFormed
 status : ∀ frameId, new.status frameId = status frameId
 replacerSize : new.replacerSize = old.replacerSize
 k : new.k = old.k

theorem WellFormed.rearranged {new : LRUKReplacer} (wellFormed : self.WellFormed)
 (perm : new.frames.Perm self.frames) (status : ∀ frameId, new.status frameId = self.status frameId)
 (placed : ∀ frameId node, new.nodeStore frameId = some node →
  node.fid = frameId ∧ node.k = new.k ∧
   (frameId ∈ new.nodeLessK ↔ node.history.length < new.k))
 (currSize : new.currSize = self.currSize) : new.WellFormed where
 nodup := perm.nodup_iff.mpr wellFormed.nodup
 tracked := by
  intro frameId
  have same : (new.nodeStore frameId).isSome = (self.nodeStore frameId).isSome := by
   have flags := congrArg isSome (status frameId)
   unfold LRUKReplacer.status at flags
   rwa [isSome_map, isSome_map] at flags
  rw [perm.mem_iff, same]
  exact wellFormed.tracked frameId
 placed := placed
 size := by
  rw [currSize, wellFormed.size, perm.countP_eq]
  refine countP_congr fun frameId _ => ?_
  unfold counted
  rw [status frameId]

variable {frameId : FrameId}

theorem WellFormed.not_mem_of_none (wellFormed : self.WellFormed)
 (unknown : self.nodeStore frameId = none) : frameId ∉ self.frames := by
 rw [wellFormed.tracked, unknown]
 nofun

variable {node : LRUKNode}

section

variable (wellFormed : self.WellFormed)
include wellFormed

theorem WellFormed.mem_of_some (known : self.nodeStore frameId = some node) :
 frameId ∈ self.frames := by
 rw [wellFormed.tracked, known]
 rfl

theorem WellFormed.apart (inLess : frameId ∈ self.nodeLessK) : frameId ∉ self.nodeMoreK :=
 fun inMore => (nodup_append.mp wellFormed.nodup).2.2 frameId inLess frameId inMore rfl

/-! ### RecordAccess -/

theorem recordAccess_new (two_le : 2 ≤ self.k) (inRange : frameId ≤ self.replacerSize)
 (unknown : self.nodeStore frameId = none) :
 ∃ result, self.recordAccess frameId = some result ∧
  Evolves self result
   (fun other => if other = frameId then some true else self.status other) := by
 have absent := wellFormed.not_mem_of_none unknown
 have status : ∀ other, (update self.nodeStore frameId
  (some ((LRUKNode.new frameId self.k true).recordAccess (self.currentTimestamp + 1)))
  other).map LRUKNode.isEvictable =
   if other = frameId then some true else self.status other :=
  fun other => status_update self _ frameId other _ rfl
 unfold recordAccess
 rw [if_neg (Nat.not_lt.mpr inRange), unknown]
 refine ⟨_, rfl, ?_, status, rfl, rfl⟩
 refine ⟨nodup_cons.mpr ⟨absent, wellFormed.nodup⟩, ?_, ?_, ?_⟩
 · intro other
   change other ∈ frameId :: self.frames ↔ _
   rw [mem_cons, wellFormed.tracked]
   by_cases same : other = frameId
   · simp [same]
   · simp [same]
 · intro other node known
   dsimp only at known ⊢
   by_cases same : other = frameId
   · rw [same, update_self] at known
     cases known
     refine ⟨same.symm, rfl, ?_⟩
     rw [same]
     simp [LRUKNode.recordAccess, LRUKNode.new]
     omega
   · rw [update_of_ne same] at known
     have old := wellFormed.placed other node known
     simp_all
 · change self.currSize + 1 = (frameId :: self.frames).countP _
   rw [countP_cons, if_pos, wellFormed.size]
   · congr 1
     refine (countP_congr_of_not_mem absent fun other different => ?_).symm
     have flag := status other
     rw [if_neg different] at flag
     exact congrArg (· == some true) flag
   · have flag := status frameId
     rw [if_pos rfl] at flag
     exact beq_iff_eq.mpr flag

theorem recordAccess_known (two_le : 2 ≤ self.k) (inRange : frameId ≤ self.replacerSize)
 (known : self.nodeStore frameId = some node) :
 ∃ result, self.recordAccess frameId = some result ∧ Evolves self result self.status := by
 have member := wellFormed.mem_of_some known
 have place := wellFormed.placed frameId node known
 have length := recordAccess_length node (self.currentTimestamp + 1) (by omega)
 have status : ∀ other, (update self.nodeStore frameId
  (some (node.recordAccess (self.currentTimestamp + 1))) other).map LRUKNode.isEvictable =
  self.status other := by
  intro other
  rw [status_update self _ frameId other _ rfl]
  by_cases same : other = frameId
  · rw [if_pos same, same, LRUKReplacer.status, known]
    rfl
  · rw [if_neg same]
 -- A frame other than the accessed one keeps its node, so only its list can matter.
 have placed : ∀ less : List FrameId,
  (∀ other, other ≠ frameId → (other ∈ less ↔ other ∈ self.nodeLessK)) →
  (frameId ∈ less ↔ (node.recordAccess (self.currentTimestamp + 1)).history.length < self.k) →
  ∀ other otherNode, update self.nodeStore frameId
   (some (node.recordAccess (self.currentTimestamp + 1))) other = some otherNode →
   otherNode.fid = other ∧ otherNode.k = self.k ∧
    (other ∈ less ↔ otherNode.history.length < self.k) := by
  intro less others own other otherNode found
  by_cases same : other = frameId
  · rw [same, update_self] at found
    cases found
    rw [same]
    exact ⟨place.1, place.2.1, own⟩
  · rw [update_of_ne same] at found
    have old := wellFormed.placed other otherNode found
    simp_all
 unfold recordAccess
 rw [if_neg (Nat.not_lt.mpr inRange), known]
 dsimp only
 rw [place.2.1] at length
 by_cases atK : node.history.length = self.k - 1
 · rw [if_pos atK]
   have inLess : frameId ∈ self.nodeLessK := place.2.2.mpr (by omega)
   refine ⟨_, rfl, wellFormed.rearranged ?_ status (placed _ ?_ ?_) rfl, status, rfl, rfl⟩
   · refine (List.Perm.append_left _ (insertMoreK_perm _ frameId _)).trans ?_
     refine perm_middle.trans ?_
     exact (List.Perm.append_right _ (perm_cons_erase inLess)).symm
   · grind
   · rw [if_pos (by omega)] at length
     constructor
     · intro impossible
       exact absurd impossible (nodup_append.mp wellFormed.nodup).1.not_mem_erase
     · intro short
       omega
 · rw [if_neg atK]
   by_cases more : node.history.length ≥ self.k
   · rw [if_pos more]
     have notLess : frameId ∉ self.nodeLessK := fun inLess => by
      have short := place.2.2.mp inLess
      omega
     have inMore : frameId ∈ self.nodeMoreK :=
      (mem_append.mp member).resolve_left notLess
     refine ⟨_, rfl, wellFormed.rearranged ?_ status (placed _ ?_ ?_) rfl, status, rfl, rfl⟩
     · refine List.Perm.append_left _ ((insertMoreK_perm _ frameId _).trans ?_)
       exact (perm_cons_erase inMore).symm
     · intro other _
       rfl
     · rw [if_neg (by omega)] at length
       constructor
       · grind
       · intro short
         omega
   · rw [if_neg more]
     refine ⟨_, rfl, wellFormed.rearranged (List.Perm.refl _) status (placed _ ?_ ?_) rfl,
      status, rfl, rfl⟩
     · intro other _
       rfl
     · rw [if_pos (by omega)] at length
       rw [place.2.2]
       omega

theorem recordAccess_spec (two_le : 2 ≤ self.k) (inRange : frameId ≤ self.replacerSize) :
 ∃ result, self.recordAccess frameId = some result ∧
  Evolves self result (fun other =>
   if other = frameId then some ((self.status frameId).getD true)
   else self.status other) := by
 cases found : self.nodeStore frameId with
 | none =>
  have unknown : self.status frameId = none := by
   rw [status, found]
   rfl
  rw [unknown]
  exact recordAccess_new wellFormed two_le inRange found
 | some node =>
  obtain ⟨result, recorded, evolves⟩ := recordAccess_known wellFormed two_le inRange found
  refine ⟨result, recorded, evolves.wellFormed, ?_, evolves.replacerSize, evolves.k⟩
  intro other
  rw [evolves.status other]
  by_cases same : other = frameId
  · rw [if_pos same, same, status, found]
    rfl
  · rw [if_neg same]

end

/-! ### SetEvictable -/

theorem status_of_some (known : self.nodeStore frameId = some node) :
 self.status frameId = some node.isEvictable := by
 rw [status, known]
 rfl

section

variable (wellFormed : self.WellFormed)
include wellFormed

theorem setEvictable_spec (inRange : frameId ≤ self.replacerSize) (flag : Bool) :
 ∃ result, self.setEvictable frameId flag = some result ∧
  Evolves self result (fun other =>
   if other = frameId then (self.status frameId).map (fun _ => flag)
   else self.status other) := by
 unfold setEvictable
 rw [if_neg (Nat.not_lt.mpr inRange)]
 cases found : self.nodeStore frameId with
 | none =>
  refine ⟨self, rfl, wellFormed, fun other => ?_, rfl, rfl⟩
  have unknown : self.status frameId = none := by
   rw [status, found]
   rfl
  by_cases same : other = frameId
  · rw [if_pos same, same, unknown]
    rfl
  · rw [if_neg same]
 | some node =>
  have member := wellFormed.mem_of_some found
  have flagged := status_of_some found
  have status : ∀ other, (update self.nodeStore frameId
   (some { node with isEvictable := flag }) other).map LRUKNode.isEvictable =
    if other = frameId then (self.status frameId).map (fun _ => flag)
    else self.status other := by
   intro other
   rw [status_update self _ frameId other _ rfl, flagged]
   rfl
  refine ⟨_, rfl, ⟨wellFormed.nodup, ?_, ?_, ?_⟩, status, rfl, rfl⟩
  · intro other
    change other ∈ self.frames ↔ _
    rw [wellFormed.tracked]
    by_cases same : other = frameId
    · simp [same, found]
    · simp [update_of_ne same]
  · intro other otherNode known
    dsimp only at known
    by_cases same : other = frameId
    · rw [same, update_self] at known
      cases known
      rw [same]
      exact wellFormed.placed frameId node found
    · rw [update_of_ne same] at known
      exact wellFormed.placed other otherNode known
  · -- The counter moves by one exactly when the flag does.
    have recount : ∀ after : FrameId → Bool, after frameId = flag →
     (∀ other, other ≠ frameId → after other = self.counted other) →
     (if (!node.isEvictable && flag) = true then
      (if (node.isEvictable && !flag) = true then self.currSize - 1
       else self.currSize) + 1
     else if (node.isEvictable && !flag) = true then self.currSize - 1
      else self.currSize) = self.frames.countP after := by
     intro after own others
     have count := countP_update wellFormed.nodup self.counted after member others
     have old : self.counted frameId = node.isEvictable := by
      rw [counted, flagged]
      cases node.isEvictable <;> rfl
     rw [own, old, ← wellFormed.size] at count
     cases was : node.isEvictable <;> cases flag <;> simp [was] at count ⊢ <;> omega
    refine recount _ ?_ fun other different => ?_
    · have own := status frameId
      rw [if_pos rfl, flagged] at own
      refine (congrArg (· == some true) own).trans ?_
      cases flag <;> rfl
    · have same := status other
      rw [if_neg different] at same
      exact congrArg (· == some true) same

/-! ### Remove and Evict -/

theorem WellFormed.forget (known : self.nodeStore frameId = some node)
 (evictable : node.isEvictable = true) {new : LRUKReplacer}
 (store : new.nodeStore = update self.nodeStore frameId none)
 (less : new.nodeLessK = self.nodeLessK.erase frameId)
 (more : new.nodeMoreK = self.nodeMoreK.erase frameId) (currSize : new.currSize = self.currSize - 1)
 (replacerSize : new.replacerSize = self.replacerSize) (k : new.k = self.k) :
 Evolves self new (fun other => if other = frameId then none else self.status other) := by
 have member := wellFormed.mem_of_some known
 have flagged := status_of_some known
 have frames : new.frames = self.frames.erase frameId := by
  unfold LRUKReplacer.frames
  rw [less, more]
  by_cases inLess : frameId ∈ self.nodeLessK
  · rw [erase_append_left _ inLess, erase_of_not_mem (wellFormed.apart inLess)]
  · rw [erase_append_right _ inLess, erase_of_not_mem inLess]
 have status : ∀ other, new.status other =
  if other = frameId then none else self.status other :=
  fun other => status_update self new.nodeStore frameId other none store
 refine ⟨⟨?_, ?_, ?_, ?_⟩, status, replacerSize, k⟩
 · rw [frames]
   exact wellFormed.nodup.erase frameId
 · intro other
   rw [frames, wellFormed.nodup.mem_erase_iff, wellFormed.tracked, store]
   by_cases same : other = frameId
   · simp [same]
   · simp [same]
 · intro other otherNode found
   rw [store] at found
   by_cases same : other = frameId
   · simp_all
   · rw [update_of_ne same] at found
     rw [less, k, mem_erase_of_ne same]
     exact wellFormed.placed other otherNode found
 · have split := countP_erase_add self.frames self.counted member
   have old : self.counted frameId = true := by
    rw [counted, flagged, evictable]
    rfl
   rw [old, Bool.toNat_true, ← wellFormed.size] at split
   have rest : (self.frames.erase frameId).countP new.counted =
    (self.frames.erase frameId).countP self.counted :=
    countP_congr_of_not_mem wellFormed.nodup.not_mem_erase fun other different => by
     rw [counted, counted, status other, if_neg different]
   rw [currSize, frames, rest]
   omega

theorem erase_other_list (frameId : FrameId) :
 (frameId ∈ self.nodeLessK → self.nodeMoreK.erase frameId = self.nodeMoreK) ∧
  (frameId ∉ self.nodeLessK → self.nodeLessK.erase frameId = self.nodeLessK) :=
 ⟨fun inLess => erase_of_not_mem (wellFormed.apart inLess), erase_of_not_mem⟩

theorem remove_spec (evictable : self.status frameId = some true) :
 ∃ result, self.remove frameId = some result ∧
  Evolves self result (fun other => if other = frameId then none else self.status other) := by
 cases found : self.nodeStore frameId with
 | none =>
  rw [status, found] at evictable
  cases evictable
 | some node =>
  have flag : node.isEvictable = true := by
   rw [status_of_some found] at evictable
   exact some.inj evictable
  have place := (wellFormed.placed frameId node found).2.2
  have others := erase_other_list wellFormed frameId
  unfold remove
  rw [found]
  dsimp only
  rw [flag, Bool.not_true, if_neg Bool.false_ne_true]
  by_cases short : node.history.length < self.k
  · rw [if_pos short]
    exact ⟨_, rfl, wellFormed.forget found flag rfl rfl
     (others.1 (place.mpr short)).symm rfl rfl rfl⟩
  · rw [if_neg short]
    exact ⟨_, rfl, wellFormed.forget found flag rfl
     (others.2 fun inLess => short (place.mp inLess)).symm rfl rfl rfl rfl⟩

end

theorem remove_not_evictable {result : LRUKReplacer} (pinned : ¬ self.status frameId = some true)
 (done : self.remove frameId = some result) :
 result = self := by
 unfold remove at done
 cases found : self.nodeStore frameId with
 | none =>
  simp_all
 | some node =>
  rw [status_of_some found] at pinned
  rw [found] at done
  cases flag : node.isEvictable with
  | true => exact absurd (congrArg some flag) pinned
  | false =>
   simp_all

theorem evictableNode_eq_some (wellFormed : self.WellFormed)
 (found : self.evictableNode frameId = some node) :
 self.nodeStore frameId = some node ∧ node.isEvictable = true ∧ node.fid = frameId := by
 obtain ⟨known, flag⟩ := filter_eq_some_iff.mp found
 exact ⟨known, flag, (wellFormed.placed frameId node known).1⟩

theorem known_of_status {flag : Bool} (status : self.status frameId = some flag) :
 (self.nodeStore frameId).isSome := by
 unfold LRUKReplacer.status at status
 cases known : self.nodeStore frameId with
 | none =>
  rw [known] at status
  cases status
 | some node => rfl

variable (wellFormed : self.WellFormed)
include wellFormed

theorem currSize_pos_iff : 0 < self.currSize ↔ ∃ frameId, self.status frameId = some true := by
 rw [wellFormed.size, countP_pos_iff]
 constructor
 · rintro ⟨frameId, -, flag⟩
   exact ⟨frameId, beq_iff_eq.mp flag⟩
 · rintro ⟨frameId, flag⟩
   refine ⟨frameId, ?_, beq_iff_eq.mpr flag⟩
   rw [wellFormed.tracked]
   exact known_of_status flag

theorem evict_none (pinned : ∀ frameId, self.status frameId ≠ some true) : self.evict = none := by
 have empty : self.currSize = 0 := by
  by_contra positive
  obtain ⟨frameId, flag⟩ := (currSize_pos_iff wellFormed).mp (Nat.pos_of_ne_zero positive)
  exact pinned frameId flag
 rw [evict, if_pos empty]

theorem evict_some {candidate : FrameId} (evictable : self.status candidate = some true) :
 ∃ frameId result, self.evict = some (frameId, result) ∧
  self.status frameId = some true ∧
  Evolves self result (fun other => if other = frameId then none else self.status other) := by
 have positive := (currSize_pos_iff wellFormed).mpr ⟨candidate, evictable⟩
 unfold evict
 rw [if_neg (by omega)]
 cases early : self.nodeLessK.reverse.findSome? self.evictableNode with
 | some curNode =>
  obtain ⟨frameId, member, found⟩ := exists_of_findSome?_eq_some early
  obtain ⟨known, flag, fid⟩ := evictableNode_eq_some wellFormed found
  have inLess := mem_reverse.mp member
  dsimp only
  rw [fid]
  refine ⟨frameId, _, rfl, by rw [status_of_some known, flag], ?_⟩
  exact wellFormed.forget known flag rfl rfl
   ((erase_other_list wellFormed frameId).1 inLess).symm rfl rfl rfl
 | none =>
  cases late : self.nodeMoreK.findSome? self.evictableNode with
  | some curNode =>
   obtain ⟨frameId, member, found⟩ := exists_of_findSome?_eq_some late
   obtain ⟨known, flag, fid⟩ := evictableNode_eq_some wellFormed found
   dsimp only
   rw [fid]
   refine ⟨frameId, _, rfl, by rw [status_of_some known, flag], ?_⟩
   exact wellFormed.forget known flag rfl
    ((erase_other_list wellFormed frameId).2 fun inLess =>
     wellFormed.apart inLess member).symm rfl rfl rfl rfl
  | none =>
   -- The candidate is in one of the lists, so a search must have met it.
   exfalso
   unfold status at evictable
   cases known : self.nodeStore candidate with
   | none =>
    simp_all
   | some node =>
    rw [known] at evictable
    have flag : node.isEvictable = true := some.inj evictable
    have found : self.evictableNode candidate = some node := by
     rw [evictableNode, known]
     exact filter_eq_some_iff.mpr ⟨rfl, flag⟩
    rcases mem_append.mp (wellFormed.mem_of_some known) with inLess | inMore
    · have missed := findSome?_eq_none_iff.mp early candidate
       (mem_reverse.mpr inLess)
      simp_all
    · have missed := findSome?_eq_none_iff.mp late candidate inMore
      simp_all

theorem evict_spec {result : LRUKReplacer} (evicted : self.evict = some (frameId, result)) :
 self.status frameId = some true ∧
  Evolves self result (fun other => if other = frameId then none else self.status other) := by
 by_cases found : ∃ candidate, self.status candidate = some true
 · obtain ⟨candidate, evictable⟩ := found
   obtain ⟨victim, after, same, spec⟩ := evict_some wellFormed evictable
   simp_all
 · rw [evict_none wellFormed fun candidate evictable => found ⟨candidate, evictable⟩] at evicted
   cases evicted

theorem size_eq_length {selected : List FrameId} (nodup : selected.Nodup)
 (evictable : ∀ frameId, frameId ∈ selected ↔ self.status frameId = some true) :
 self.size = selected.length := by
 rw [size, wellFormed.size]
 refine countP_eq_length wellFormed.nodup nodup fun frameId => ?_
 rw [evictable, wellFormed.tracked]
 constructor
 · intro flag
   exact ⟨known_of_status flag, beq_iff_eq.mpr flag⟩
 · rintro ⟨-, flag⟩
   exact beq_iff_eq.mp flag

end LRUKReplacer

end MyNotes.Cmu15445
