/-
Adding to the skip list.

`add` links new nodes in from the bottom up, as long as the coin allows, and a new level on top
of them all if it still does.
-/

import MyNotes.Algorithms.Skiplist

namespace MyNotes.Algorithms.Skiplist

open Library Library.LinkedChain Function List Nat Level Node

variable {nodes other : ℕ → Node} {level : Level} {levels below raised : List Level} {num : ℤ}
 {self middle after : Skiplist} {p : ℕ} {downNode : Option ℕ}

theorem pathFrom_spec {pointer : Option ℕ} {rounds : ℕ} {pathList : List ℕ}
 (tower : Tower self.nodes levels) (entry : EntryOf self.nodes num pointer levels)
 (enough : levels.length ≤ rounds) (short : ∀ level ∈ levels, level.nodes.length < self.size) :
 self.pathFrom num rounds pointer pathList =
  some ((levels.map fun level => level.before self.nodes num).reverse ++ pathList) := by
 induction levels generalizing pointer rounds pathList with
 | nil =>
  rw [show pointer = none from entry]
  unfold pathFrom
  rfl
 | cons level below ih =>
  obtain ⟨chain, sorted, rests, tower⟩ := tower
  obtain ⟨p, isPointer, entry⟩ := entry
  rw [length_cons] at enough
  obtain ⟨left, isRounds⟩ : ∃ left, rounds = left + 1 := ⟨rounds - 1, by omega⟩
  rw [isPointer, isRounds]
  unfold pathFrom
  rw [entry.walk_eq chain sorted (short level mem_cons_self)]
  dsimp only [Option.bind]
  rw [ih tower ((level.before_entry self.nodes num).down rests) (by omega)
   fun other member => short other (mem_cons_of_mem level member)]
  simp

/-! ### One node -/

/-- One round of the second loop of `add`. -/
def insertNode (self : Skiplist) (p : ℕ) (downNode : Option ℕ) (num : ℤ) : Skiplist :=
 (self.allocate ⟨(self.nodes p).right, downNode, num⟩).setRight p (some self.size)

theorem insertLoop_snoc (num : ℤ) (flips : ℕ → Bool) (pathList : List ℕ) (insert flip : ℕ)
 (self : Skiplist) (downNode : Option ℕ) :
 insertLoop num flips (pathList ++ [insert]) flip self downNode =
  let (middle, middleDown, insertUp) := insertLoop num flips pathList flip self downNode
  if insertUp then
   (middle.insertNode insert middleDown num, some middle.size, flips (flip + pathList.length))
  else (middle, middleDown, false) := by
 induction pathList generalizing flip self downNode with
 | nil =>
  change (if flips flip then _ else _) = (_, _, flips flip)
  cases flips flip <;> rfl
 | cons first pathList ih =>
  rw [cons_append]
  unfold insertLoop
  cases flips flip with
  | true =>
   grind
  | false => rfl

variable {i : ℕ}

theorem insertNode_of_ne (notBefore : i ≠ p) (old : i ≠ self.size) :
 (self.insertNode p downNode num).nodes i = self.nodes i :=
 (update_of_ne notBefore _ _).trans (update_of_ne old _ _)

theorem insertNode_before (old : p < self.size) :
 (self.insertNode p downNode num).nodes p = { self.nodes p with right := some self.size } := by
 have kept : (self.allocate ⟨(self.nodes p).right, downNode, num⟩).nodes p = self.nodes p :=
  update_of_ne old.ne _ _
 rw [← kept]
 exact update_self _ _ _

theorem insertNode_new (old : p < self.size) :
 (self.insertNode p downNode num).nodes self.size = ⟨(self.nodes p).right, downNode, num⟩ := by
 change update _ p _ self.size = _
 rw [update_of_ne old.ne']
 exact update_self _ _ _

theorem insertNode_kept {i : ℕ} (beforeOld : p < self.size) (old : i < self.size) :
 ((self.insertNode p downNode num).nodes i).val = (self.nodes i).val ∧
  ((self.insertNode p downNode num).nodes i).down = (self.nodes i).down := by
 by_cases isBefore : i = p
 · rw [isBefore, insertNode_before beforeOld]
   exact ⟨rfl, rfl⟩
 · rw [insertNode_of_ne isBefore old.ne]
   exact ⟨rfl, rfl⟩

/-- The level with a node at the place of the value. -/
def Level.insert (nodes : ℕ → Node) (num : ℤ) (new : ℕ) (level : Level) : Level :=
 { level with nodes := (level.nodes.takeWhile fun i => (nodes i).val < num) ++
  new :: level.nodes.dropWhile fun i => (nodes i).val < num }

theorem Level.insert_congr {new : ℕ} (same : ∀ i ∈ level.nodes, (other i).val = (nodes i).val) :
 level.insert other num new = level.insert nodes num new := by
 have agree : ∀ i ∈ level.nodes, decide ((other i).val < num) = decide ((nodes i).val < num) :=
  fun i member => by rw [same i member]
 obtain ⟨front, back⟩ := SortedCut.cut_congr agree
 unfold insert
 rw [front, back]

theorem Level.insert_perm (level : Level) (nodes : ℕ → Node) (num : ℤ) (new : ℕ) :
 (level.insert nodes num new).nodes.Perm (new :: level.nodes) := by
 have whole : (level.nodes.takeWhile fun i => (nodes i).val < num) ++
  level.nodes.dropWhile (fun i => (nodes i).val < num) = level.nodes :=
  takeWhile_append_dropWhile
 calc
  (level.insert nodes num new).nodes.Perm _ := perm_middle
  _ = new :: level.nodes := by rw [whole]

theorem Level.insert_ids_perm (level : Level) (nodes : ℕ → Node) (num : ℤ) (new : ℕ) :
 (level.insert nodes num new).ids.Perm (new :: level.ids) :=
 ((level.insert_perm nodes num new).cons level.sentinel).trans (List.Perm.swap _ _ _)

theorem Level.sublist_insert (level : Level) (nodes : ℕ → Node) (num : ℤ) (new : ℕ) :
 level.nodes.Sublist (level.insert nodes num new).nodes := by
 have whole : (level.nodes.takeWhile fun i => (nodes i).val < num) ++
  level.nodes.dropWhile (fun i => (nodes i).val < num) = level.nodes :=
  takeWhile_append_dropWhile
 have longer : ((level.nodes.takeWhile fun i => (nodes i).val < num) ++
  level.nodes.dropWhile fun i => (nodes i).val < num).Sublist
   (level.insert nodes num new).nodes :=
  (List.Sublist.refl _).append (sublist_cons_self new _)
 rwa [whole] at longer

/-! ### The levels of the path -/

/-- The first of the levels before and after; while the coin allows, `downNode` is the node that
is new in it. -/
def Lifted (nodes : ℕ → Node) (num : ℤ) (downNode : Option ℕ) (insertUp : Bool) :
 List Level → List Level → Prop
 | [], [] => downNode = none ∧ insertUp = true
 | level :: _, longer :: _ => longer.sentinel = level.sentinel ∧
  level.nodes.Sublist longer.nodes ∧
  (insertUp = true → ∃ new, downNode = some new ∧ (nodes new).val = num ∧
   longer = level.insert nodes num new)
 | _, _ => False

/-- What the second loop of `add` does on the levels that it has passed. -/
structure Added (list after : Skiplist) (levels raised : List Level) (num : ℤ)
 (downNode : Option ℕ) (insertUp : Bool) : Prop where
 head : after.head = list.head
 removed : after.removed = list.removed
 size : list.size ≤ after.size
 kept : ∀ i < list.size, (after.nodes i).val = (list.nodes i).val ∧
  (after.nodes i).down = (list.nodes i).down
 others : ∀ i < list.size, i ∉ idsOf levels → after.nodes i = list.nodes i
 tower : Tower after.nodes raised
 nodup : (idsOf raised).Nodup
 allocated : ∀ i ∈ idsOf raised, i ∈ idsOf levels ∨ list.size ≤ i ∧ i < after.size
 top : Lifted after.nodes num downNode insertUp levels raised
 values : levels ≠ [] → (values after.nodes raised).Perm (num :: values list.nodes levels)

theorem Lifted.congr {insertUp : Bool} (lifted : Lifted nodes num downNode insertUp below raised)
 (same : ∀ i ∈ idsOf raised, (other i).val = (nodes i).val) :
 Lifted other num downNode insertUp below raised := by
 match below, raised, lifted with
 | [], [], lifted => exact lifted
 | lower :: below, longer :: raised, ⟨sameSentinel, sublist, inserted⟩ =>
  have first : ∀ i ∈ longer.nodes, (other i).val = (nodes i).val := fun i member =>
   same i (mem_idsOf_first (mem_ids member))
  refine ⟨sameSentinel, sublist, fun goesOn => ?_⟩
  obtain ⟨new, isNew, isNum, isLonger⟩ := inserted goesOn
  have inside : new ∈ longer.nodes := by
   rw [isLonger]
   exact (lower.insert_perm nodes num new).symm.subset mem_cons_self
  refine ⟨new, isNew, (first new inside).trans isNum, isLonger.trans ?_⟩
  exact (insert_congr fun i member => first i (sublist.subset member)).symm

theorem Rests.widen {lower longer : Level} (rests : Rests nodes level (some lower))
 (sameSentinel : longer.sentinel = lower.sentinel)
 (sublist : lower.nodes.Sublist longer.nodes) : Rests nodes level (some longer) := by
 obtain ⟨sentinelDown, images, step, inside⟩ := rests
 rw [← sameSentinel] at sentinelDown
 exact ⟨sentinelDown, images, step, inside.trans sublist⟩

theorem Rests.insert {new : ℕ} (rests : Rests nodes level below.head?)
 (lifted : Lifted nodes num downNode true below raised)
 (sorted : ∀ lower ∈ below.head?,
  lower.nodes.Pairwise fun i j => (nodes i).val ≤ (nodes j).val)
 (isDown : (nodes new).down = downNode) (isNum : (nodes new).val = num) :
 Rests nodes (level.insert nodes num new) raised.head? := by
 match below, raised, lifted with
 | [], [], ⟨isNone, _⟩ =>
  intro i member
  rcases mem_cons.mp ((level.insert_ids_perm nodes num new).subset member) with
   isNew | old
  · rw [isNew, isDown, isNone]
  · exact rests i old
 | lower :: below, longer :: raised, ⟨sameSentinel, _, inserted⟩ =>
  obtain ⟨image, isImage, imageNum, isLonger⟩ := inserted rfl
  obtain ⟨sentinelDown, images, step, inside⟩ := rests
  rw [isImage] at isDown
  refine ⟨sentinelDown.trans (congrArg some sameSentinel.symm), _,
   SortedCut.forall₂_insert step (fun i image related => by rw [related.2])
    ⟨isDown, isNum.trans imageNum.symm⟩, ?_⟩
  rw [isLonger]
  exact SortedCut.sublist_insert _ inside (sorted lower rfl)
   (fun left right ordered failed => decide_eq_false
    (not_lt.mpr ((not_lt.mp (of_decide_eq_false failed)).trans ordered))) image

theorem insertNode_chain
 (chain : Chain (fun i => (nodes i).right) level.sentinel level.nodes)
 (nodup : level.ids.Nodup) (same : ∀ i ∈ level.ids, middle.nodes i = nodes i)
 (old : ∀ i ∈ level.ids, i < middle.size) :
 Chain (fun i => ((middle.insertNode (level.before nodes num) downNode num).nodes i).right)
  level.sentinel (level.insert nodes num middle.size).nodes := by
 have whole : (level.nodes.takeWhile fun i => (nodes i).val < num) ++
  level.nodes.dropWhile (fun i => (nodes i).val < num) = level.nodes :=
  takeWhile_append_dropWhile
 have beforeOld := old _ (level.before_entry nodes num).mem_ids
 have middleChain : Chain (fun i => (middle.nodes i).right) level.sentinel level.nodes :=
  chain.congr fun i member => congrArg right (same i member)
 unfold ids at nodup old
 rw [← whole] at middleChain nodup old
 refine middleChain.insert nodup ?_ ?_ fun i member different => ?_
 · exact congrArg right (insertNode_before beforeOld)
 · rw [insertNode_new beforeOld]
   rfl
 · exact congrArg right (insertNode_of_ne different (old i member).ne)

theorem Level.insert_sorted {new : ℕ}
 (sorted : level.nodes.Pairwise fun i j => (nodes i).val ≤ (nodes j).val)
 (isNum : (nodes new).val = num) :
 (level.insert nodes num new).nodes.Pairwise fun i j => (nodes i).val ≤ (nodes j).val := by
 refine SortedCut.pairwise_insert _ sorted (fun left right ordered failed => ?_)
  (fun i member small => ?_) fun i member large => ?_
 · grind
 · grind
 · simp_all

namespace Added

variable {insertUp : Bool}

theorem disjoint (added : Added self after below raised num downNode insertUp)
 (nodup : (idsOf (level :: below)).Nodup) (old : ∀ i ∈ idsOf (level :: below), i < self.size) :
 ∀ i ∈ level.ids, i ∉ idsOf raised := by
 intro i inLevel inRaised
 rcases added.allocated i inRaised with inBelow | ⟨fresh, -⟩
 · exact (nodup_idsOf_cons.mp nodup).2.2 i inLevel inBelow
 · exact absurd (old i (mem_idsOf_first inLevel)) (not_lt.mpr fresh)

theorem skip (added : Added self after below raised num downNode false)
 (tower : Tower self.nodes (level :: below)) (nodup : (idsOf (level :: below)).Nodup)
 (old : ∀ i ∈ idsOf (level :: below), i < self.size) :
 Added self after (level :: below) (level :: raised) num downNode false := by
 obtain ⟨chain, sorted, rests, -⟩ := tower
 obtain ⟨levelNodup, -, apart⟩ := nodup_idsOf_cons.mp nodup
 have same : ∀ i ∈ level.ids, after.nodes i = self.nodes i := fun i member =>
  added.others i (old i (mem_idsOf_first member)) (apart i member)
 have restsBelow : Rests after.nodes level below.head? :=
  rests.congr fun i member => added.kept i (old i member)
 have top := added.top
 refine ⟨added.head, added.removed, added.size, added.kept, fun i isOld outside => ?_,
  ⟨?_, ?_, ?_, added.tower⟩, ?_, fun i member => ?_, ?_, fun _ => ?_⟩
 · exact added.others i isOld fun inside => outside (mem_idsOf_below inside)
 · exact chain.congr fun i member => congrArg right (same i member)
 · exact sorted_congr sorted fun i member => congrArg val (same i (mem_ids member))
 · match below, raised, top with
   | [], [], ⟨_, impossible⟩ => cases impossible
   | lower :: below, longer :: raised, ⟨sameSentinel, sublist, _⟩ =>
    exact restsBelow.widen sameSentinel sublist
 · exact nodup_idsOf_cons.mpr ⟨levelNodup, added.nodup, added.disjoint nodup old⟩
 · rw [idsOf_cons, mem_append] at member
   rcases member with inLevel | inRaised
   · exact .inl (mem_idsOf_first inLevel)
   · exact (added.allocated i inRaised).imp_left mem_idsOf_below
 · exact ⟨rfl, List.Sublist.refl _, fun impossible => by cases impossible⟩
 · match below, raised, top with
   | [], [], ⟨_, impossible⟩ => cases impossible
   | lower :: below, longer :: raised, _ => exact added.values (cons_ne_nil _ _)

/-! ### One more level -/

section Step

variable (added : Added self middle below raised num downNode true)
 (tower : Tower self.nodes (level :: below)) (nodup : (idsOf (level :: below)).Nodup)
 (old : ∀ i ∈ idsOf (level :: below), i < self.size)

include added old in
theorem before_lt : level.before self.nodes num < middle.size :=
 (old _ (mem_idsOf_first (level.before_entry self.nodes num).mem_ids)).trans_le added.size

include added old in
theorem unused : middle.size ∉ level.ids ∧ middle.size ∉ idsOf raised := by
 have size := added.size
 constructor
 · intro inLevel
   have := old _ (mem_idsOf_first inLevel)
   omega
 · intro inRaised
   rcases added.allocated _ inRaised with inBelow | ⟨-, bound⟩
   · have := old _ (mem_idsOf_below inBelow)
     omega
   · omega

include added old in
theorem step_kept : ∀ i < self.size,
 ((middle.insertNode (level.before self.nodes num) downNode num).nodes i).val =
  (self.nodes i).val ∧
  ((middle.insertNode (level.before self.nodes num) downNode num).nodes i).down =
   (self.nodes i).down := by
 intro i isOld
 obtain ⟨sameVal, sameDown⟩ :=
  @insertNode_kept num middle _ downNode i (added.before_lt old) (isOld.trans_le added.size)
 exact ⟨sameVal.trans (added.kept i isOld).1, sameDown.trans (added.kept i isOld).2⟩

include added nodup old in
theorem step_below : ∀ i ∈ idsOf raised,
 (middle.insertNode (level.before self.nodes num) downNode num).nodes i = middle.nodes i := by
 intro i inRaised
 refine insertNode_of_ne (fun isBefore => ?_) fun isNew => ?_
 · rw [isBefore] at inRaised
   exact added.disjoint nodup old _ (level.before_entry self.nodes num).mem_ids inRaised
 · rw [isNew] at inRaised
   exact (added.unused old).2 inRaised

include added old in
theorem step_insert :
 level.insert (middle.insertNode (level.before self.nodes num) downNode num).nodes num
  middle.size = level.insert self.nodes num middle.size :=
 insert_congr fun i member =>
  (added.step_kept old i (old i (mem_idsOf_first (mem_ids member)))).1

include added tower nodup old in
theorem step_tower :
 Tower (middle.insertNode (level.before self.nodes num) downNode num).nodes
  (level.insert self.nodes num middle.size :: raised) := by
 obtain ⟨chain, sorted, rests, belowTower⟩ := tower
 obtain ⟨levelNodup, -, apart⟩ := nodup_idsOf_cons.mp nodup
 have kept := added.step_kept old
 have same := added.step_below nodup old
 have isNew := @insertNode_new num middle _ downNode (added.before_lt old)
 refine ⟨?_, ?_, ?_, added.tower.congr same⟩
 · refine insertNode_chain chain levelNodup (fun i member => ?_) fun i member => ?_
   · exact added.others i (old i (mem_idsOf_first member)) (apart i member)
   · exact (old i (mem_idsOf_first member)).trans_le added.size
 · rw [← added.step_insert old]
   refine insert_sorted (sorted_congr sorted fun i member => ?_) (by rw [isNew])
   exact (kept i (old i (mem_idsOf_first (mem_ids member)))).1
 · rw [← added.step_insert old]
   refine (rests.congr fun i member => kept i (old i member)).insert
    (added.top.congr fun i member => congrArg val (same i member)) ?_ (by rw [isNew])
    (by rw [isNew])
   intro lower isHead
   obtain ⟨rest, rfl⟩ := List.head?_eq_some_iff.mp isHead
   refine sorted_congr belowTower.2.1 fun i member => ?_
   exact (kept i (old i (mem_idsOf_below (mem_idsOf_first (mem_ids member))))).1

include added nodup old in
theorem step_nodup : (idsOf (level.insert self.nodes num middle.size :: raised)).Nodup := by
 obtain ⟨levelNodup, -, -⟩ := nodup_idsOf_cons.mp nodup
 obtain ⟨notInLevel, notInRaised⟩ := added.unused old
 have newIds := level.insert_ids_perm self.nodes num middle.size
 refine nodup_idsOf_cons.mpr ⟨?_, added.nodup, fun i inLevel => ?_⟩
 · grind
 · rcases mem_cons.mp (newIds.subset inLevel) with isNew | wasThere
   · rw [isNew]
     exact notInRaised
   · exact added.disjoint nodup old i wasThere

include added nodup old in
theorem step_values :
 (Skiplist.values (middle.insertNode (level.before self.nodes num) downNode num).nodes
  (level.insert self.nodes num middle.size :: raised)).Perm
  (num :: Skiplist.values self.nodes (level :: below)) := by
 have isNew := @insertNode_new num middle _ downNode (added.before_lt old)
 have kept := added.step_kept old
 have same := added.step_below nodup old
 match below, raised, added.top with
 | [], [], _ =>
  refine ((level.insert_perm self.nodes num middle.size).map _).trans ?_
  rw [map_cons, isNew]
  refine List.Perm.cons num (List.Perm.of_eq (map_congr_left fun i member => ?_))
  exact (kept i (old i (mem_idsOf_first (mem_ids member)))).1
 | lower :: below, longer :: raised, _ =>
  refine List.Perm.trans (List.Perm.of_eq (map_congr_left fun i member => ?_))
   (added.values (cons_ne_nil _ _))
  exact congrArg val (same i (mem_idsOf_bottom member))

include added tower nodup old in
theorem step (insertUp : Bool) :
 Added self (middle.insertNode (level.before self.nodes num) downNode num) (level :: below)
  (level.insert self.nodes num middle.size :: raised) num (some middle.size) insertUp where
 head := added.head
 removed := added.removed
 size := added.size.trans (le_succ _)
 kept := added.step_kept old
 others i isOld outside := by
  have notBefore : i ≠ level.before self.nodes num := by
   intro isBefore
   rw [isBefore] at outside
   exact outside (mem_idsOf_first (level.before_entry self.nodes num).mem_ids)
  rw [insertNode_of_ne notBefore (isOld.trans_le added.size).ne]
  exact added.others i isOld fun inBelow => outside (mem_idsOf_below inBelow)
 tower := added.step_tower tower nodup old
 nodup := added.step_nodup nodup old
 allocated i member := by
  rw [idsOf_cons, mem_append] at member
  rcases member with inLevel | inRaised
  · rcases mem_cons.mp ((level.insert_ids_perm _ _ _).subset inLevel) with isNew | wasThere
    · rw [isNew]
      exact .inr ⟨added.size, lt_succ_self _⟩
    · exact .inl (mem_idsOf_first wasThere)
  · exact (added.allocated i inRaised).imp mem_idsOf_below fun fresh =>
     ⟨fresh.1, fresh.2.trans (lt_succ_self _)⟩
 top := by
  refine ⟨rfl, level.sublist_insert _ _ _, fun _ => ⟨_, rfl, ?_, (added.step_insert old).symm⟩⟩
  rw [insertNode_new (added.before_lt old)]
 values _ := added.step_values nodup old

end Step

theorem sentinels (added : Added self after levels raised num downNode insertUp) :
 raised.head?.map sentinel = levels.head?.map sentinel := by
 match levels, raised, added.top with
 | [], [], _ => rfl
 | level :: below, longer :: raised, ⟨sameSentinel, _⟩ => exact congrArg some sameSentinel

theorem layered (added : Added self after levels raised num downNode insertUp)
 (layered : Layered self levels) : Layered after raised where
 head := by
  rw [added.sentinels, added.head]
  exact layered.head
 tower := added.tower
 nodup := added.nodup
 allocated i member := by
  rcases added.allocated i member with old | ⟨-, bound⟩
  · exact (layered.allocated i old).trans_le added.size
  · exact bound
 removed i member := by
  rw [added.removed] at member
  obtain ⟨isOld, outside⟩ := layered.removed i member
  refine ⟨isOld.trans_le added.size, fun inside => ?_⟩
  rcases added.allocated i inside with old | ⟨fresh, -⟩
  · exact outside old
  · omega

end Added

theorem insertLoop_spec (num : ℤ) (flips : ℕ → Bool) (tower : Tower self.nodes levels)
 (nodup : (idsOf levels).Nodup) (old : ∀ i ∈ idsOf levels, i < self.size) :
 ∃ after raised downNode insertUp,
  insertLoop num flips (levels.map fun level => level.before self.nodes num).reverse 0 self
   none = (after, downNode, insertUp) ∧
  Added self after levels raised num downNode insertUp := by
 induction levels with
 | nil =>
  exact ⟨self, [], none, true, rfl, rfl, rfl, le_refl _, fun _ _ => ⟨rfl, rfl⟩,
   fun _ _ _ => rfl, trivial, nodup_nil, fun _ member => (by cases member), ⟨rfl, rfl⟩,
   fun some => absurd rfl some⟩
 | cons level below ih =>
  obtain ⟨middle, raised, downNode, insertUp, runs, added⟩ :=
   ih tower.2.2.2 (nodup_idsOf_cons.mp nodup).2.1 fun i member =>
    old i (mem_idsOf_below member)
  rw [map_cons, reverse_cons, insertLoop_snoc, runs]
  cases insertUp with
  | true => exact ⟨_, _, _, _, rfl, added.step tower nodup old _⟩
  | false => exact ⟨_, _, _, _, rfl, added.skip tower nodup old⟩

/-- The new head and the new node, one above all levels. -/
def addLevel (self : Skiplist) (downNode : Option ℕ) (num : ℤ) : Skiplist :=
 let top := self.allocate ⟨none, downNode, num⟩
 { top.allocate ⟨some self.size, some self.head, -1⟩ with head := top.size }

theorem addLevel_old (old : i < self.size) :
 (self.addLevel downNode num).nodes i = self.nodes i :=
 (update_of_ne (by change i ≠ self.size + 1; omega) _ _).trans
  (update_of_ne old.ne _ _)

theorem addLevel_new : (self.addLevel downNode num).nodes self.size = ⟨none, downNode, num⟩ :=
 (update_of_ne (by change self.size ≠ self.size + 1; omega) _ _).trans
  (update_self _ _ _)

theorem addLevel_head :
 (self.addLevel downNode num).nodes (self.size + 1) = ⟨some self.size, some self.head, -1⟩ :=
 update_self _ _ _

theorem addLevel_fresh (new : i ∈ ids ⟨self.size + 1, [self.size]⟩) :
 self.size ≤ i ∧ i < self.size + 2 := by
 rcases mem_cons.mp new with isHead | isNode
 · simp_all
 · rw [mem_singleton.mp isNode]
   omega

theorem Layered.addLevel {image : ℕ} {top : Level} (layered : Layered self (top :: below))
 (inTop : image ∈ top.nodes) (isNum : (self.nodes image).val = num) :
 Layered (self.addLevel (some image) num) (⟨self.size + 1, [self.size]⟩ :: top :: below) where
 head := rfl
 tower := by
  have same : ∀ i ∈ idsOf (top :: below),
   (self.addLevel (some image) num).nodes i = self.nodes i := fun i member =>
   addLevel_old (layered.allocated i member)
  have imageInside : image ∈ idsOf (top :: below) := mem_idsOf_first (mem_ids inTop)
  have isHead : top.sentinel = self.head := Option.some.inj layered.head
  refine ⟨⟨?_, ?_⟩, pairwise_singleton _ _, ⟨?_, [image], .cons ⟨?_, ?_⟩ .nil, ?_⟩,
   layered.tower.congr same⟩
  · exact congrArg right addLevel_head
  · exact congrArg right addLevel_new
  · rw [addLevel_head, isHead]
  · rw [addLevel_new]
  · rw [addLevel_new, same image imageInside, isNum]
  · exact singleton_sublist.mpr inTop
 nodup := by
  refine nodup_idsOf_cons.mpr ⟨?_, layered.nodup, fun i new old => ?_⟩
  · exact nodup_cons.mpr ⟨fun same => Nat.succ_ne_self _ (mem_singleton.mp same),
     nodup_singleton _⟩
  · exact absurd (layered.allocated i old) (Nat.not_lt.mpr (addLevel_fresh new).1)
 allocated i member := by
  rw [idsOf_cons, mem_append] at member
  rcases member with new | old
  · exact (addLevel_fresh new).2
  · exact (layered.allocated i old).trans (Nat.lt_add_of_pos_right Nat.two_pos)
 removed i member := by
  obtain ⟨isOld, outside⟩ := layered.removed i member
  refine ⟨isOld.trans (Nat.lt_add_of_pos_right Nat.two_pos), fun inside => ?_⟩
  rw [idsOf_cons, mem_append] at inside
  rcases inside with new | old
  · exact absurd isOld (Nat.not_lt.mpr (addLevel_fresh new).1)
  · exact outside old

theorem Layered.add_spec (layered : Layered self levels) (num : ℤ) (flips : ℕ → Bool) :
 ∃ after raised, self.add num flips = some after ∧ Layered after raised ∧
  (values after.nodes raised).Perm (num :: values self.nodes levels) := by
 obtain ⟨middle, raised, downNode, insertUp, runs, added⟩ :=
  insertLoop_spec num flips layered.tower layered.nodup layered.allocated
 have path := @pathFrom_spec levels num self _ _ [] layered.tower (layered.entry num)
  layered.levels_le layered.nodes_lt
 rw [append_nil] at path
 have nonempty : levels ≠ [] := by
  intro isEmpty
  have head := layered.head
  rw [isEmpty] at head
  cases head
 have middleLayered := added.layered layered
 rw [add, path]
 dsimp only [Option.map]
 rw [runs]
 cases insertUp with
 | false => exact ⟨middle, raised, rfl, middleLayered, added.values nonempty⟩
 | true =>
  match levels, raised, added.top with
  | [], [], _ => exact absurd rfl nonempty
  | level :: below, top :: raised, ⟨_, _, inserted⟩ =>
   obtain ⟨new, isNew, isNum, isTop⟩ := inserted rfl
   have inTop : new ∈ top.nodes := by
    rw [isTop]
    exact (level.insert_perm middle.nodes num new).symm.subset mem_cons_self
   have grown := middleLayered.addLevel inTop isNum
   rw [← isNew] at grown
   refine ⟨_, _, rfl, grown, ?_⟩
   refine List.Perm.trans (List.Perm.of_eq (map_congr_left fun i member => ?_))
    (added.values nonempty)
   exact congrArg val
    (addLevel_old (middleLayered.allocated i (mem_idsOf_bottom member)))

end MyNotes.Algorithms.Skiplist
