/-
Erasing from the skip list.

`erase` unlinks the first node of the value on each level.  The first of the upper level need
not be above the first of the lower one, but both lists keep their order, so the down pointers
that are left still lead to nodes that are left.
-/

import MyNotes.Algorithms.Skiplist

namespace MyNotes.Algorithms.Skiplist

open Library Library.LinkedChain Function List Level Skiplist

variable {nodes other : ℕ → Node} {level : Level} {levels below : List Level} {num : ℤ}
 {self middle after : Skiplist}

def Level.without (nodes : ℕ → Node) (num : ℤ) (level : Level) : Level :=
 { level with nodes := level.nodes.eraseP fun i => (nodes i).val = num }

theorem Level.without_congr (same : ∀ i, (other i).val = (nodes i).val) :
 without other num = without nodes num := by
 funext level
 unfold without
 simp only [same]

theorem Level.without_of_ne (absent : ∀ i ∈ level.nodes, (nodes i).val ≠ num) :
 level.without nodes num = level := by
 unfold without
 rw [eraseP_of_forall_not fun i member isNum => absent i member (of_decide_eq_true isNum)]

theorem Level.without_nodes {right : ℕ} {rest : List ℕ}
 (whole : level.nodes = (level.nodes.takeWhile fun i => (nodes i).val < num) ++ right :: rest)
 (isNum : (nodes right).val = num) :
 (level.without nodes num).nodes =
  (level.nodes.takeWhile fun i => (nodes i).val < num) ++ rest := by
 change level.nodes.eraseP (fun i => (nodes i).val = num) = _
 obtain ⟨front, isFront⟩ : ∃ front, front = level.nodes.takeWhile fun i => (nodes i).val < num :=
  ⟨_, rfl⟩
 rw [← isFront] at whole ⊢
 have small : ∀ i ∈ front, ¬ decide ((nodes i).val = num) = true := by
  intro i member isNum
  rw [isFront] at member
  exact (val_lt_of_mem_takeWhile member).ne (of_decide_eq_true isNum)
 have first : decide ((nodes right).val = num) = true := decide_eq_true isNum
 grind

theorem Level.without_sublist (level : Level) (nodes : ℕ → Node) (num : ℤ) :
 (level.without nodes num).ids.Sublist level.ids :=
 eraseP_sublist.cons_cons level.sentinel

theorem without_sublist (levels : List Level) (nodes : ℕ → Node) (num : ℤ) :
 (idsOf (levels.map (without nodes num))).Sublist (idsOf levels) := by
 induction levels with
 | nil => exact .slnil
 | cons level below ih =>
  rw [map_cons, idsOf_cons, idsOf_cons]
  exact (level.without_sublist nodes num).append ih

theorem without_subset {i : ℕ} (member : i ∈ idsOf (levels.map (without nodes num))) :
 i ∈ idsOf levels := (without_sublist levels nodes num).subset member

theorem bottom_without (levels : List Level) (nodes : ℕ → Node) (num : ℤ) :
 bottom (levels.map (without nodes num)) =
  (bottom levels).eraseP fun i => (nodes i).val = num := by
 induction levels with
 | nil => rfl
 | cons level below ih =>
  cases below with
  | nil => rfl
  | cons lower below => exact ih

theorem Rests.without (rests : Rests nodes level below.head?) :
 Rests nodes (level.without nodes num) (below.map (without nodes num)).head? := by
 cases below with
 | nil => exact fun i member => rests i ((level.without_sublist nodes num).subset member)
 | cons lower below =>
  obtain ⟨sentinelDown, images, step, sublist⟩ := rests
  refine ⟨sentinelDown, images.eraseP fun i => (nodes i).val = num, ?_, sublist.eraseP⟩
  refine SortedCut.forall₂_eraseP step fun i image related => ?_
  rw [related.2]

/-- What `erase` does on one level. -/
structure Unlinked (list middle : Skiplist) (level : Level) (num : ℤ) : Prop where
 size : middle.size = list.size
 head : middle.head = list.head
 kept : ∀ i, (middle.nodes i).val = (list.nodes i).val ∧
  (middle.nodes i).down = (list.nodes i).down
 others : ∀ i, i ∉ level.ids → middle.nodes i = list.nodes i
 chain : Chain (fun i => (middle.nodes i).right) level.sentinel
  (level.without list.nodes num).nodes
 removed : ∀ i ∈ middle.removed,
  i ∈ list.removed ∨ i ∈ level.ids ∧ i ∉ (level.without list.nodes num).ids

theorem Unlinked.refl (chain : Chain (fun i => (self.nodes i).right) level.sentinel level.nodes)
 (absent : ∀ i ∈ level.nodes, (self.nodes i).val ≠ num) : Unlinked self self level num where
 size := rfl
 head := rfl
 kept _ := ⟨rfl, rfl⟩
 others _ _ := rfl
 chain := by
  rw [without_of_ne absent]
  exact chain
 removed i member := .inl member

def unlink (self : Skiplist) (p right : ℕ) : Skiplist :=
 { self.setRight p (self.nodes right).right with removed := right :: self.removed }

theorem unlink_spec {right : ℕ} {rest : List ℕ}
 (chain : Chain (fun i => (self.nodes i).right) level.sentinel level.nodes)
 (nodup : level.ids.Nodup)
 (whole : level.nodes =
  (level.nodes.takeWhile fun i => (self.nodes i).val < num) ++ right :: rest)
 (isNum : (self.nodes right).val = num) :
 Unlinked self (self.unlink (level.before self.nodes num) right) level num where
 size := rfl
 head := rfl
 kept i := by
  change (update self.nodes _ _ i).val = _ ∧ (update self.nodes _ _ i).down = _
  by_cases isBefore : i = level.before self.nodes num
  · grind
  · grind
 others i outside :=
  update_of_ne (ne_of_mem_of_not_mem (level.before_entry _ num).mem_ids outside).symm _ _
 chain := by
  rw [without_nodes whole isNum]
  have split := whole
  unfold ids at nodup
  rw [split] at chain nodup
  refine chain.unlink nodup ?_ fun i _ different => ?_
  · change (update self.nodes _ _ _).right = _
    rw [before, update_self]
  · exact congrArg Node.right (update_of_ne different _ _)
 removed i member := by
  rcases mem_cons.mp member with isRight | old
  · right
    rw [isRight]
    unfold ids at nodup ⊢
    rw [without_nodes whole isNum]
    have inside : right ∈ level.nodes := by
     rw [whole]
     exact mem_append_right _ mem_cons_self
    have split := whole
    rw [split, ← cons_append] at nodup
    have gone := nodup_middle.mp nodup
    exact ⟨mem_cons_of_mem _ inside, (nodup_cons.mp gone).1⟩
  · exact .inl old

/-- What `erase` does on the levels. -/
structure Erased (list after : Skiplist) (levels : List Level) (num : ℤ) : Prop where
 size : after.size = list.size
 head : after.head = list.head
 kept : ∀ i, (after.nodes i).val = (list.nodes i).val ∧
  (after.nodes i).down = (list.nodes i).down
 others : ∀ i, i ∉ idsOf levels → after.nodes i = list.nodes i
 tower : Tower after.nodes (levels.map (Level.without list.nodes num))
 removed : ∀ i ∈ after.removed, i ∈ list.removed ∨
  i ∈ idsOf levels ∧ i ∉ idsOf (levels.map (Level.without list.nodes num))

theorem Unlinked.erased (first : Unlinked self middle level num)
 (rest : Erased middle after below num) (nodup : (idsOf (level :: below)).Nodup)
 (sorted : level.nodes.Pairwise fun i j => (self.nodes i).val ≤ (self.nodes j).val)
 (rests : Rests self.nodes level below.head?) : Erased self after (level :: below) num := by
 obtain ⟨-, -, disjoint⟩ := nodup_idsOf_cons.mp nodup
 have thinner : without middle.nodes num = without self.nodes num :=
  without_congr fun i => (first.kept i).1
 have kept : ∀ i, (after.nodes i).val = (self.nodes i).val ∧
  (after.nodes i).down = (self.nodes i).down := fun i =>
  ⟨(rest.kept i).1.trans (first.kept i).1, (rest.kept i).2.trans (first.kept i).2⟩
 have removedIn := rest.removed
 have tower := rest.tower
 rw [thinner] at tower removedIn
 refine ⟨rest.size.trans first.size, rest.head.trans first.head, kept, fun i outside => ?_,
  ?_, fun i member => ?_⟩
 · rw [rest.others i fun inside => outside (mem_idsOf_below inside)]
   exact first.others i fun inside => outside (mem_idsOf_first inside)
 · rw [map_cons]
   refine ⟨first.chain.congr fun i member => ?_, ?_, ?_, tower⟩
   · exact congrArg Node.right
      (rest.others i (disjoint i ((level.without_sublist self.nodes num).subset member)))
   · exact sorted_congr (sorted.sublist eraseP_sublist) fun i _ => (kept i).1
   · exact rests.without.congr fun i _ => kept i
 · rw [map_cons, idsOf_cons, idsOf_cons, mem_append, mem_append]
   rcases removedIn i member with early | ⟨inBelow, gone⟩
   · rcases first.removed i early with old | ⟨inLevel, gone⟩
     · exact .inl old
     · refine .inr ⟨.inl inLevel, ?_⟩
       rintro (stays | stays)
       · exact gone stays
       · exact disjoint i inLevel (without_subset stays)
   · refine .inr ⟨.inr inBelow, ?_⟩
     rintro (stays | stays)
     · exact disjoint i ((level.without_sublist self.nodes num).subset stays) inBelow
     · exact gone stays

theorem eraseFrom_spec {pointer : Option ℕ} {rounds : ℕ} {seen : Bool}
 (tower : Tower self.nodes levels) (nodup : (idsOf levels).Nodup)
 (entry : EntryOf self.nodes num pointer levels) (enough : levels.length ≤ rounds)
 (short : ∀ level ∈ levels, level.nodes.length < self.size) :
 ∃ after found, eraseFrom num rounds self pointer seen = some (after, seen || found) ∧
  (found = true ↔ ∃ level ∈ levels, level.Has self.nodes num) ∧
  Erased self after levels num := by
 induction levels generalizing self pointer rounds seen with
 | nil =>
  rw [show pointer = none from entry]
  refine ⟨self, false, ?_, ?_, rfl, rfl, fun _ => ⟨rfl, rfl⟩, fun _ _ => rfl, trivial,
   fun i member => .inl member⟩
  · unfold eraseFrom
    rw [Bool.or_false]
  · exact iff_of_false Bool.false_ne_true fun ⟨_, member, _⟩ => by cases member
 | cons level below ih =>
  obtain ⟨chain, sorted, rests, tower⟩ := tower
  obtain ⟨p, isPointer, entry⟩ := entry
  obtain ⟨levelNodup, belowNodup, disjoint⟩ := nodup_idsOf_cons.mp nodup
  rw [length_cons] at enough
  obtain ⟨left, isRounds⟩ : ∃ left, rounds = left + 1 := ⟨rounds - 1, by omega⟩
  have down := (level.before_entry self.nodes num).down rests
  have shortBelow : ∀ other ∈ below, other.nodes.length < self.size := fun other member =>
   short other (mem_cons_of_mem level member)
  -- without a node of the value on this level, the levels below decide
  have skip : (∀ i ∈ level.nodes, (self.nodes i).val ≠ num) → ∃ after found,
   eraseFrom num left self (self.nodes (level.before self.nodes num)).down seen =
    some (after, seen || found) ∧
   (found = true ↔ ∃ other ∈ level :: below, other.Has self.nodes num) ∧
   Erased self after (level :: below) num := by
   intro absent
   obtain ⟨after, found, runs, has, erased⟩ :=
    @ih self _ left seen tower belowNodup down (by omega) shortBelow
   refine ⟨after, found, runs, ?_,
    (Unlinked.refl chain absent).erased erased nodup sorted rests⟩
   rw [has, has_cons_of_ne absent]
  rw [isPointer, isRounds]
  unfold eraseFrom
  rw [entry.walk_eq chain sorted (short level mem_cons_self)]
  dsimp only [Option.bind]
  rcases level.right_before chain sorted num with
   ⟨isEnd, absent⟩ | ⟨right, rest, isRight, whole, least, larger⟩
  · rw [isEnd]
    exact skip absent
  · rw [isRight]
    dsimp only
    by_cases more : (self.nodes right).val > num
    · grind
    · rw [if_neg more]
      have isNum : (self.nodes right).val = num := le_antisymm (not_lt.mp more) least
      have first := unlink_spec chain levelNodup whole isNum
      obtain ⟨middle, isMiddle⟩ :
       ∃ middle, middle = self.unlink (level.before self.nodes num) right := ⟨_, rfl⟩
      rw [← isMiddle] at first
      have outside : ∀ i ∈ idsOf below, i ∉ level.ids := fun i inBelow inLevel =>
       disjoint i inLevel inBelow
      have towerBelow : Tower middle.nodes below :=
       tower.congr fun i member => first.others i (outside i member)
      have downBelow : EntryOf middle.nodes num
       (middle.nodes (level.before self.nodes num)).down below := by
       rw [(first.kept _).2]
       exact down.congr fun i => (first.kept i).1
      obtain ⟨after, found, runs, -, erased⟩ :=
       @ih middle _ left true towerBelow belowNodup downBelow (by omega)
        (first.size.symm ▸ shortBelow)
      refine ⟨after, true, ?_, iff_of_true rfl ⟨level, mem_cons_self, right, ?_, isNum⟩,
       first.erased erased nodup sorted rests⟩
      · rw [isMiddle] at runs
        rw [Bool.or_true]
        exact runs
      · grind

theorem Erased.layered (erased : Erased self after levels num) (layered : Layered self levels) :
 Layered after (levels.map (without self.nodes num)) where
 head := by
  rw [List.head?_map, Option.map_map, erased.head]
  exact layered.head
 tower := erased.tower
 nodup := layered.nodup.sublist (without_sublist levels self.nodes num)
 allocated i member := by
  rw [erased.size]
  exact layered.allocated i (without_subset member)
 removed i member := by
  rw [erased.size]
  rcases erased.removed i member with old | ⟨inside, gone⟩
  · obtain ⟨isOld, outside⟩ := layered.removed i old
    exact ⟨isOld, fun stays => outside (without_subset stays)⟩
  · exact ⟨layered.allocated i inside, gone⟩

theorem Erased.values (erased : Erased self after levels num) :
 Skiplist.values after.nodes (levels.map (without self.nodes num)) =
  (Skiplist.values self.nodes levels).erase num := by
 unfold Skiplist.values
 rw [bottom_without, erase_eq_eraseP', eraseP_map]
 exact map_congr_left fun i _ => (erased.kept i).1

theorem Layered.erase_spec (layered : Layered self levels) (num : ℤ) :
 ∃ after thinner, self.erase num =
  some (after, decide (num ∈ values self.nodes levels)) ∧
  Layered after thinner ∧
  values after.nodes thinner = (values self.nodes levels).erase num := by
 obtain ⟨after, found, runs, has, erased⟩ := @eraseFrom_spec levels num self _ _ false
  layered.tower layered.nodup (layered.entry num) layered.levels_le layered.nodes_lt
 rw [layered.tower.has_iff, ← mem_map] at has
 refine ⟨after, _, ?_, erased.layered layered, erased.values⟩
 rw [erase, runs, Bool.false_or, Bool.eq_iff_iff.mpr (has.trans decide_eq_true_iff.symm)]
 rfl

end MyNotes.Algorithms.Skiplist
