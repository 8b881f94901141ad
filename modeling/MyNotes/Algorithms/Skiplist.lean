/-
The skip list of the search notes.

A pointer is the number of its node in the order of the allocations, and no node is
deallocated.  The loops have a bound on their rounds, the number of the nodes, and a run
that needs more has no result.  `rand` is a sequence of coin flips for each call of `add`.
-/

import MyNotes.Library.LinkedChain
import MyNotes.Library.SortedCut
import Mathlib.Algebra.Order.Ring.Int
import Mathlib.Data.List.Perm.Subperm

namespace MyNotes.Algorithms

open Library Library.LinkedChain List

namespace Skiplist

structure Node where
 right : Option ℕ
 down : Option ℕ
 val : ℤ

end Skiplist

/-- `removed` records the nodes that `erase` has unlinked. -/
structure Skiplist where
 nodes : ℕ → Skiplist.Node
 size : ℕ
 head : ℕ
 removed : List ℕ

namespace Skiplist

def new : Skiplist := ⟨fun _ => ⟨none, none, -1⟩, 1, 0, []⟩

def setRight (self : Skiplist) (p : ℕ) (right : Option ℕ) : Skiplist :=
 { self with nodes := Function.update self.nodes p { self.nodes p with right } }

/-- `new Node(...)`, at the address `size` -/
def allocate (self : Skiplist) (node : Node) : Skiplist :=
 { self with nodes := Function.update self.nodes self.size node, size := self.size + 1 }

/-- `while (p->right && p->right->val < num) p = p->right;` -/
def walk (nodes : ℕ → Node) (num : ℤ) : ℕ → ℕ → Option ℕ
 | 0, _ => none
 | rounds + 1, p =>
  match (nodes p).right with
  | none => some p
  | some right => if (nodes right).val < num then walk nodes num rounds right else some p

def searchFrom (self : Skiplist) (target : ℤ) : ℕ → Option ℕ → Option Bool
 | _, none => some false
 | 0, some _ => none
 | rounds + 1, some p =>
  (walk self.nodes target self.size p).bind fun p =>
   match (self.nodes p).right with
   | none => self.searchFrom target rounds (self.nodes p).down
   | some right =>
    if target < (self.nodes right).val then
     self.searchFrom target rounds (self.nodes p).down
    else some true

def search (self : Skiplist) (target : ℤ) : Option Bool :=
 self.searchFrom target self.size (some self.head)

/-- The first loop of `add`; the node pushed last is in front. -/
def pathFrom (self : Skiplist) (num : ℤ) : ℕ → Option ℕ → List ℕ → Option (List ℕ)
 | _, none, pathList => some pathList
 | 0, some _, _ => none
 | rounds + 1, some p, pathList =>
  (walk self.nodes num self.size p).bind fun p =>
   self.pathFrom num rounds (self.nodes p).down (p :: pathList)

/-- The second loop of `add`, entered with `insertUp`; what is left is the list, `downNode` and
`insertUp`. -/
def insertLoop (num : ℤ) (flips : ℕ → Bool) :
 List ℕ → ℕ → Skiplist → Option ℕ → Skiplist × Option ℕ × Bool
 | [], _, self, downNode => (self, downNode, true)
 | insert :: pathList, flip, self, downNode =>
  let node := self.size
  let self :=
   (self.allocate ⟨(self.nodes insert).right, downNode, num⟩).setRight insert (some node)
  if flips flip then insertLoop num flips pathList (flip + 1) self (some node)
  else (self, some node, false)

def add (self : Skiplist) (num : ℤ) (flips : ℕ → Bool) : Option Skiplist :=
 (self.pathFrom num self.size (some self.head) []).map fun pathList =>
  let (self, downNode, insertUp) := insertLoop num flips pathList 0 self none
  if insertUp then
   let node := self.size
   let self := self.allocate ⟨none, downNode, num⟩
   let head := self.size
   { self.allocate ⟨some node, some self.head, -1⟩ with head }
  else self

def eraseFrom (num : ℤ) : ℕ → Skiplist → Option ℕ → Bool → Option (Skiplist × Bool)
 | _, self, none, seen => some (self, seen)
 | 0, _, some _, _ => none
 | rounds + 1, self, some p, seen =>
  (walk self.nodes num self.size p).bind fun p =>
   match (self.nodes p).right with
   | none => eraseFrom num rounds self (self.nodes p).down seen
   | some right =>
    if (self.nodes right).val > num then
     eraseFrom num rounds self (self.nodes p).down seen
    else
     let self := { self.setRight p (self.nodes right).right with
      removed := right :: self.removed }
     eraseFrom num rounds self (self.nodes p).down true

def erase (self : Skiplist) (num : ℤ) : Option (Skiplist × Bool) :=
 eraseFrom num self.size self (some self.head) false

/-! ### Levels -/

structure Level where
 sentinel : ℕ
 nodes : List ℕ

def Level.ids (level : Level) : List ℕ := level.sentinel :: level.nodes

def idsOf (levels : List Level) : List ℕ := levels.flatMap Level.ids

/-- Where the down pointers of a level lead: nowhere, or to nodes of the next level of the same
values, each to another one and in the same order. -/
def Rests (nodes : ℕ → Node) (upper : Level) : Option Level → Prop
 | none => ∀ i ∈ upper.ids, (nodes i).down = none
 | some lower => (nodes upper.sentinel).down = some lower.sentinel ∧
  ∃ images, List.Forall₂ (fun i image =>
   (nodes i).down = some image ∧ (nodes i).val = (nodes image).val) upper.nodes images ∧
   images.Sublist lower.nodes

/-- The levels from the top down: each is a sorted chain that rests on the next one. -/
def Tower (nodes : ℕ → Node) : List Level → Prop
 | [] => True
 | level :: below =>
  Chain (fun i => (nodes i).right) level.sentinel level.nodes ∧
   level.nodes.Pairwise (fun i j => (nodes i).val ≤ (nodes j).val) ∧
   Rests nodes level below.head? ∧ Tower nodes below

/-- The skip list has these levels, and no removed node is in them. -/
structure Layered (list : Skiplist) (levels : List Level) : Prop where
 head : levels.head?.map Level.sentinel = some list.head
 tower : Tower list.nodes levels
 nodup : (idsOf levels).Nodup
 allocated : ∀ i ∈ idsOf levels, i < list.size
 removed : ∀ i ∈ list.removed, i < list.size ∧ i ∉ idsOf levels

def bottom : List Level → List ℕ
 | [] => []
 | [level] => level.nodes
 | _ :: below => bottom below

theorem new_layered : Layered new [⟨0, []⟩] where
 head := rfl
 tower := ⟨rfl, List.Pairwise.nil, fun _ _ => rfl, trivial⟩
 nodup := nodup_singleton 0
 allocated i member := by
  rw [mem_singleton.mp member]
  exact Nat.one_pos
 removed i member := by cases member

variable {nodes other : ℕ → Node} {level : Level} {levels below : List Level} {num : ℤ} {p : ℕ}

theorem idsOf_cons (level : Level) (below : List Level) :
 idsOf (level :: below) = level.ids ++ idsOf below := flatMap_cons

theorem sentinel_mem (level : Level) : level.sentinel ∈ level.ids := mem_cons_self

variable {i : ℕ}

theorem Level.mem_ids (member : i ∈ level.nodes) : i ∈ level.ids :=
 mem_cons_of_mem _ member

theorem mem_idsOf_first (member : i ∈ level.ids) : i ∈ idsOf (level :: below) := by
 rw [idsOf_cons]
 exact mem_append_left _ member

theorem mem_idsOf_below (member : i ∈ idsOf below) : i ∈ idsOf (level :: below) := by
 rw [idsOf_cons]
 exact mem_append_right _ member

theorem mem_idsOf_bottom (member : i ∈ bottom levels) : i ∈ idsOf levels := by
 induction levels with
 | nil => cases member
 | cons level below ih =>
  cases below with
  | nil => exact mem_idsOf_first (Level.mem_ids member)
  | cons lower below => exact mem_idsOf_below (ih member)

theorem nodup_idsOf_cons : (idsOf (level :: below)).Nodup ↔
 level.ids.Nodup ∧ (idsOf below).Nodup ∧ ∀ i ∈ level.ids, i ∉ idsOf below := by
 rw [idsOf_cons, nodup_append]
 refine and_congr_right fun _ => and_congr_right fun _ => ?_
 constructor
 · grind
 · grind

variable {l : List ℕ}

theorem sorted_congr (sorted : l.Pairwise fun i j => (nodes i).val ≤ (nodes j).val)
 (same : ∀ i ∈ l, (other i).val = (nodes i).val) :
 l.Pairwise fun i j => (other i).val ≤ (other j).val := by
 refine sorted.imp_of_mem fun {i j} left right ordered => ?_
 rw [same i left, same j right]
 exact ordered

theorem Rests.congr (rests : Rests nodes level below.head?)
 (same : ∀ i ∈ idsOf (level :: below),
  (other i).val = (nodes i).val ∧ (other i).down = (nodes i).down) :
 Rests other level below.head? := by
 cases below with
 | nil => exact fun i member => (same i (mem_idsOf_first member)).2.trans (rests i member)
 | cons lower below =>
  obtain ⟨sentinelDown, images, step, sublist⟩ := rests
  refine ⟨(same _ (mem_idsOf_first (sentinel_mem level))).2.trans sentinelDown, images,
   ?_, sublist⟩
  have inside : ∀ image ∈ images, image ∈ idsOf (level :: lower :: below) := fun image member =>
   mem_idsOf_below (mem_idsOf_first (Level.mem_ids (sublist.subset member)))
  have upper : ∀ i ∈ level.nodes, i ∈ idsOf (level :: lower :: below) := fun i member =>
   mem_idsOf_first (Level.mem_ids member)
  refine SortedCut.forall₂_imp_mem step fun i member image imageMember related => ?_
  simp_all

theorem Tower.congr (tower : Tower nodes levels) (same : ∀ i ∈ idsOf levels, other i = nodes i) :
 Tower other levels := by
 induction levels with
 | nil => trivial
 | cons level below ih =>
  obtain ⟨chain, sorted, rests, tower⟩ := tower
  have first : ∀ i ∈ level.ids, other i = nodes i := fun i member =>
   same i (mem_idsOf_first member)
  refine ⟨?_, ?_, ?_, ?_⟩
  · exact chain.congr fun i member => congrArg Node.right (first i member)
  · exact sorted_congr sorted fun i member => congrArg Node.val (first i (Level.mem_ids member))
  · exact rests.congr fun i member =>
     ⟨congrArg Node.val (same i member), congrArg Node.down (same i member)⟩
  · exact ih tower fun i member => same i (mem_idsOf_below member)

/-! ### The way down -/

/-- The last node of a level before the place of `num`. -/
def Level.before (level : Level) (nodes : ℕ → Node) (num : ℤ) : ℕ :=
 finish level.sentinel (level.nodes.takeWhile fun i => (nodes i).val < num)

/-- The walk can start at `p`. -/
def Level.Entry (level : Level) (nodes : ℕ → Node) (num : ℤ) (p : ℕ) : Prop :=
 p = level.sentinel ∨ p ∈ level.nodes ∧ (nodes p).val < num

variable {rounds : ℕ}

theorem walk_eq (chain : Chain (fun i => (nodes i).right) p l) (enough : l.length < rounds) :
 walk nodes num rounds p = some (finish p (l.takeWhile fun i => (nodes i).val < num)) := by
 induction l generalizing p rounds with
 | nil =>
  obtain ⟨rounds, rfl⟩ := Nat.exists_eq_add_of_lt enough
  unfold walk
  rw [show (nodes p).right = none from chain]
  rfl
 | cons q rest ih =>
  rw [length_cons] at enough
  obtain ⟨left, isRounds⟩ : ∃ left, rounds = left + 1 := ⟨rounds - 1, by omega⟩
  rw [isRounds]
  unfold walk
  rw [show (nodes p).right = some q from chain.1, takeWhile_cons]
  dsimp only
  by_cases small : (nodes q).val < num
  · rw [if_pos small, if_pos (decide_eq_true small)]
    exact ih chain.2 (by omega)
  · rw [if_neg small, if_neg fun passes => small (of_decide_eq_true passes)]
    rfl

theorem Level.Entry.walk_eq (entry : level.Entry nodes num p)
 (chain : Chain (fun i => (nodes i).right) level.sentinel level.nodes)
 (sorted : level.nodes.Pairwise fun i j => (nodes i).val ≤ (nodes j).val)
 (enough : level.nodes.length < rounds) :
 walk nodes num rounds p = some (level.before nodes num) := by
 rcases entry with isSentinel | ⟨member, small⟩
 · rw [isSentinel]
   exact Skiplist.walk_eq chain enough
 · obtain ⟨front, back, whole⟩ := append_of_mem member
   have split : level.nodes = (front ++ [p]) ++ back := by
    rw [whole, append_assoc]
    rfl
   have allSmall : ∀ i ∈ front ++ [p], decide ((nodes i).val < num) = true := by
    intro i inside
    rw [whole, pairwise_append] at sorted
    rcases mem_append.mp inside with before | isP
    · grind
    · simp_all
   have reaches : finish level.sentinel (front ++ [p]) = p := finish_append _ front [p]
   unfold Level.before
   rw [split] at chain enough ⊢
   rw [takeWhile_append_of_pos allSmall, finish_append]
   have rest := chain.suffix
   rw [reaches] at rest ⊢
   rw [length_append] at enough
   exact Skiplist.walk_eq rest (by omega)

theorem val_lt_of_mem_takeWhile (member : i ∈ l.takeWhile fun i => (nodes i).val < num) :
 (nodes i).val < num :=
 of_decide_eq_true (@mem_takeWhile_imp _ (fun i => decide ((nodes i).val < num)) _ _ member)

theorem Level.before_entry (level : Level) (nodes : ℕ → Node) (num : ℤ) :
 level.Entry nodes num (level.before nodes num) := by
 rcases mem_cons.mp (finish_mem level.sentinel
  (level.nodes.takeWhile fun i => (nodes i).val < num)) with isSentinel | inside
 · exact .inl isSentinel
 · exact .inr ⟨(takeWhile_sublist _).subset inside, val_lt_of_mem_takeWhile inside⟩

theorem Level.Entry.mem_ids (entry : level.Entry nodes num p) : p ∈ level.ids := by
 rcases entry with isSentinel | ⟨member, -⟩
 · rw [isSentinel]
   exact sentinel_mem level
 · exact Level.mem_ids member

/-- A pointer to an entry of the first level, or a null pointer if there is none. -/
def EntryOf (nodes : ℕ → Node) (num : ℤ) : Option ℕ → List Level → Prop
 | pointer, [] => pointer = none
 | pointer, level :: _ => ∃ p, pointer = some p ∧ level.Entry nodes num p

theorem EntryOf.congr {pointer : Option ℕ} (entry : EntryOf nodes num pointer levels)
 (same : ∀ i, (other i).val = (nodes i).val) : EntryOf other num pointer levels := by
 cases levels with
 | nil => exact entry
 | cons level below =>
  obtain ⟨p, isPointer, entry⟩ := entry
  refine ⟨p, isPointer, entry.imp_right fun ⟨member, small⟩ => ⟨member, ?_⟩⟩
  rw [same]
  exact small

theorem Level.Entry.down (entry : level.Entry nodes num p)
 (rests : Rests nodes level below.head?) : EntryOf nodes num (nodes p).down below := by
 cases below with
 | nil => exact rests p entry.mem_ids
 | cons lower below =>
  obtain ⟨sentinelDown, images, step, sublist⟩ := rests
  rcases entry with isSentinel | ⟨member, small⟩
  · exact ⟨lower.sentinel, isSentinel ▸ sentinelDown, .inl rfl⟩
  · obtain ⟨image, inImages, isDown, sameVal⟩ := SortedCut.exists_of_mem_left step member
    exact ⟨image, isDown, .inr ⟨sublist.subset inImages, sameVal ▸ small⟩⟩

theorem Level.right_before
 (chain : Chain (fun i => (nodes i).right) level.sentinel level.nodes)
 (sorted : level.nodes.Pairwise fun i j => (nodes i).val ≤ (nodes j).val) (num : ℤ) :
 ((nodes (level.before nodes num)).right = none ∧ ∀ i ∈ level.nodes, (nodes i).val ≠ num) ∨
 ∃ right rest, (nodes (level.before nodes num)).right = some right ∧
  level.nodes = (level.nodes.takeWhile fun i => (nodes i).val < num) ++ right :: rest ∧
  num ≤ (nodes right).val ∧
  (num < (nodes right).val → ∀ i ∈ level.nodes, (nodes i).val ≠ num) := by
 obtain ⟨back, isBack⟩ : ∃ back, back = level.nodes.dropWhile fun i => (nodes i).val < num :=
  ⟨_, rfl⟩
 have whole : (level.nodes.takeWhile fun i => (nodes i).val < num) ++ back = level.nodes :=
  isBack ▸ takeWhile_append_dropWhile
 have front : ∀ i ∈ level.nodes.takeWhile fun i => (nodes i).val < num, (nodes i).val ≠ num :=
  fun i member => (val_lt_of_mem_takeWhile member).ne
 have large : ∀ i ∈ back, num ≤ (nodes i).val := by
  intro i member
  have fails := SortedCut.eq_false_of_mem_dropWhile (fun i => decide ((nodes i).val < num))
   sorted (fun left right before failed => decide_eq_false
    (not_lt.mpr ((not_lt.mp (of_decide_eq_false failed)).trans before))) i (isBack ▸ member)
  exact not_lt.mp (of_decide_eq_false fails)
 have follows : (nodes (level.before nodes num)).right = back.head? := by
  rw [← whole] at chain
  exact chain.suffix.head?
 rw [← whole, pairwise_append] at sorted
 cases back with
 | nil =>
  grind
 | cons right rest =>
  refine .inr ⟨right, rest, follows, whole.symm, large right mem_cons_self,
   fun larger i member => ?_⟩
  rw [← whole, mem_append] at member
  rcases member with inFront | inBack
  · exact front i inFront
  · rcases mem_cons.mp inBack with isRight | later
    · rw [isRight]
      exact larger.ne'
    · exact (larger.trans_le ((pairwise_cons.mp sorted.2.1).1 i later)).ne'

/-! ### The search -/

def Level.Has (level : Level) (nodes : ℕ → Node) (num : ℤ) : Prop :=
 ∃ i ∈ level.nodes, (nodes i).val = num

theorem has_cons_of_ne (absent : ∀ i ∈ level.nodes, (nodes i).val ≠ num) :
 (∃ other ∈ level :: below, other.Has nodes num) ↔ ∃ other ∈ below, other.Has nodes num := by
 constructor
 · intro ⟨other, member, has⟩
   rcases mem_cons.mp member with isFirst | later
   · rw [isFirst] at has
     obtain ⟨i, inLevel, isNum⟩ := has
     exact absurd isNum (absent i inLevel)
   · exact ⟨other, later, has⟩
 · simp_all

theorem Tower.has_iff (tower : Tower nodes levels) :
 (∃ level ∈ levels, level.Has nodes num) ↔ ∃ i ∈ bottom levels, (nodes i).val = num := by
 induction levels with
 | nil =>
  constructor
  · intro ⟨_, member, _⟩
    cases member
  · intro ⟨_, member, _⟩
    cases member
 | cons level below ih =>
  obtain ⟨-, -, rests, tower⟩ := tower
  cases below with
  | nil =>
   constructor
   · intro ⟨other, member, has⟩
     rw [mem_singleton.mp member] at has
     exact has
   · intro has
     exact ⟨level, mem_singleton_self level, has⟩
  | cons lower below =>
   refine Iff.trans ?_ (ih tower)
   constructor
   · intro ⟨other, member, has⟩
     rcases mem_cons.mp member with isFirst | later
     · rw [isFirst] at has
       obtain ⟨i, inLevel, isNum⟩ := has
       obtain ⟨-, images, step, sublist⟩ := rests
       obtain ⟨image, inImages, -, sameVal⟩ := SortedCut.exists_of_mem_left step inLevel
       exact ⟨lower, mem_cons_self, image, sublist.subset inImages,
        sameVal.symm.trans isNum⟩
     · exact ⟨other, later, has⟩
   · simp_all

theorem searchFrom_spec {self : Skiplist} {pointer : Option ℕ} (tower : Tower self.nodes levels)
 (entry : EntryOf self.nodes num pointer levels) (enough : levels.length ≤ rounds)
 (short : ∀ level ∈ levels, level.nodes.length < self.size) :
 ∃ found, self.searchFrom num rounds pointer = some found ∧
  (found = true ↔ ∃ level ∈ levels, level.Has self.nodes num) := by
 induction levels generalizing pointer rounds with
 | nil =>
  rw [show pointer = none from entry]
  refine ⟨false, by unfold searchFrom; rfl, ?_⟩
  exact iff_of_false Bool.false_ne_true fun ⟨_, member, _⟩ => by cases member
 | cons level below ih =>
  obtain ⟨chain, sorted, rests, tower⟩ := tower
  obtain ⟨p, isPointer, entry⟩ := entry
  rw [length_cons] at enough
  obtain ⟨left, isRounds⟩ : ∃ left, rounds = left + 1 := ⟨rounds - 1, by omega⟩
  have down := ih tower ((level.before_entry self.nodes num).down rests)
   (show below.length ≤ left by omega)
   fun other member => short other (mem_cons_of_mem level member)
  rw [isPointer, isRounds]
  unfold searchFrom
  rw [entry.walk_eq chain sorted (short level mem_cons_self)]
  dsimp only [Option.bind]
  rcases level.right_before chain sorted num with
   ⟨isEnd, none⟩ | ⟨right, rest, isRight, whole, least, larger⟩
  · rw [isEnd, has_cons_of_ne none]
    exact down
  · rw [isRight]
    dsimp only
    by_cases less : num < (self.nodes right).val
    · rw [if_pos less, has_cons_of_ne (larger less)]
      exact down
    · rw [if_neg less]
      refine ⟨true, rfl, iff_of_true rfl ⟨level, mem_cons_self, right, ?_,
       le_antisymm (not_lt.mp less) least⟩⟩
      grind

/-! ### Skip lists with levels -/

def values (nodes : ℕ → Node) (levels : List Level) : List ℤ :=
 (bottom levels).map fun i => (nodes i).val

theorem length_le_idsOf (levels : List Level) : levels.length ≤ (idsOf levels).length := by
 induction levels with
 | nil => exact Nat.zero_le _
 | cons level below ih =>
  rw [idsOf_cons, length_append, length_cons, Level.ids, length_cons]
  omega

namespace Layered

variable {list : Skiplist}

variable (layered : Layered list levels)
include layered

theorem idsOf_length_le : (idsOf levels).length ≤ list.size := by
 have inside : (idsOf levels) ⊆ List.range list.size := fun i member =>
  mem_range.mpr (layered.allocated i member)
 have bound := (subperm_of_subset layered.nodup inside).length_le
 rwa [length_range] at bound

theorem levels_le : levels.length ≤ list.size :=
 (length_le_idsOf levels).trans layered.idsOf_length_le

theorem nodes_lt : ∀ level ∈ levels, level.nodes.length < list.size := by
 intro level member
 have inside : level.ids.length ≤ (idsOf levels).length :=
  (sublist_flatten_of_mem (mem_map_of_mem member)).length_le
 rw [Level.ids, length_cons] at inside
 exact inside.trans layered.idsOf_length_le

theorem entry (num : ℤ) : EntryOf list.nodes num (some list.head) levels := by
 have head := layered.head
 cases levels with
 | nil => cases head
 | cons level below => exact ⟨level.sentinel, head.symm, .inl rfl⟩

theorem search_spec (target : ℤ) :
 list.search target = some (decide (target ∈ values list.nodes levels)) := by
 obtain ⟨found, runs, has⟩ := searchFrom_spec layered.tower (layered.entry target)
  layered.levels_le layered.nodes_lt
 rw [layered.tower.has_iff, ← mem_map] at has
 rw [search, runs, Bool.eq_iff_iff.mpr (has.trans decide_eq_true_iff.symm)]
 rfl

end Layered

end Skiplist

end MyNotes.Algorithms
