/-
The best items of a list: a sorter, and a bounded queue that gives up its worst item.

Both are parameters that keep to their contract where the order is a strict weak order on
the items at hand; what they do with equivalent items is left open.
-/

import Mathlib.Data.List.Induction

namespace MyNotes.Library.BoundedSelection

open List BoundedSelection

variable {Item Key : Type*}

structure StrictWeakOrder (less : Item → Item → Bool) (items : List Item) : Prop where
 asymm : ∀ first ∈ items, ∀ second ∈ items, less first second = true → less second first = false
 negTrans : ∀ first ∈ items, ∀ second ∈ items, ∀ third ∈ items,
  less first second = false → less second third = false → less first third = false

def Ordered (less : Item → Item → Bool) (items : List Item) : Prop :=
 items.Pairwise fun first second => less second first = false

structure Sorter (Item : Type*) where
 sort : (Item → Item → Bool) → List Item → List Item
 perm : ∀ less items, (sort less items).Perm items
 ordered : ∀ less items, StrictWeakOrder less items → Ordered less (sort less items)

/-- A priority queue over a list of items: what it gives up is not better than any other. -/
structure PriorityQueue (Item : Type*) where
 pop : (Item → Item → Bool) → Item → List Item → Item × List Item
 perm : ∀ less item items,
  ((pop less item items).1 :: (pop less item items).2).Perm (item :: items)
 worst : ∀ less item items, StrictWeakOrder less (item :: items) →
  ∀ other ∈ item :: items, less (pop less item items).1 other = false

theorem PriorityQueue.length_pop (queue : PriorityQueue Item) (less : Item → Item → Bool)
 (item : Item) (items : List Item) : (queue.pop less item items).2.length = items.length := by
 have lengths := (queue.perm less item items).length_eq
 simp_all

section Order

variable {less : Item → Item → Bool} {items others : List Item}

theorem StrictWeakOrder.subset (order : StrictWeakOrder less items) (subset : others ⊆ items) :
 StrictWeakOrder less others where
 asymm first inFirst second inSecond := order.asymm first (subset inFirst) second (subset inSecond)
 negTrans first inFirst second inSecond third inThird :=
  order.negTrans first (subset inFirst) second (subset inSecond) third (subset inThird)

theorem StrictWeakOrder.irrefl (order : StrictWeakOrder less items) {item : Item}
 (member : item ∈ items) : less item item = false := by
 cases self : less item item with
 | false => rfl
 | true => exact (self.symm.trans (order.asymm item member item member self))

theorem Ordered.map_eq {keyOf : Item → Key} (perm : items.Perm others)
 (first : Ordered less items) (second : Ordered less others)
 (connected : ∀ one ∈ items, ∀ other ∈ items, less one other = false →
  less other one = false → keyOf one = keyOf other)
 (congr : ∀ one other again otherAgain, keyOf one = keyOf again →
  keyOf other = keyOf otherAgain → less one other = less again otherAgain) :
 items.map keyOf = others.map keyOf := by
 have keyed : ∀ list : List Item, Ordered less list → (∀ item ∈ list, item ∈ items) →
  (list.map keyOf).Pairwise fun key keyAgain => ∃ one ∈ items, ∃ other ∈ items,
   keyOf one = key ∧ keyOf other = keyAgain ∧ less other one = false := by
  intro list ordered inside
  rw [pairwise_map]
  refine ordered.imp_of_mem fun inOne inOther least => ?_
  exact ⟨_, inside _ inOne, _, inside _ inOther, rfl, rfl, least⟩
 refine List.Perm.eq_of_pairwise (fun key keyAgain _ _ before later => ?_)
  (keyed items first fun _ member => member)
  (keyed others second fun _ member => perm.mem_iff.mpr member) (perm.map keyOf)
 grind

end Order

/-! ### The bounded queue -/

section Queue

variable (queue : PriorityQueue Item) (less : Item → Item → Bool)

/-- Take an item in, and give one up if there are too many. -/
def offer (limit : ℕ) (kept : List Item) (item : Item) : List Item :=
 if kept.length + 1 > limit then (queue.pop less item kept).2 else item :: kept

def unload : ℕ → List Item → List Item → List Item
 | 0, _, stack => stack
 | _ + 1, [], stack => stack
 | size + 1, item :: kept, stack =>
  unload size (queue.pop less item kept).2 ((queue.pop less item kept).1 :: stack)

/-- The best of some items are kept, as many as there may be. -/
structure Selected (limit : ℕ) (items kept dropped : List Item) : Prop where
 perm : (kept ++ dropped).Perm items
 length : kept.length = min limit items.length
 best : ∀ item ∈ kept, ∀ other ∈ dropped, less other item = false

variable {queue less}

theorem selected_nil (limit : ℕ) : Selected less limit [] [] [] where
 perm := List.Perm.refl _
 length := (Nat.min_zero limit).symm
 best _ impossible := by cases impossible

variable {limit : ℕ} {kept : List Item}

theorem length_offer (bound : kept.length ≤ limit) (item : Item) :
 (offer queue less limit kept item).length = min limit (kept.length + 1) := by
 unfold offer
 by_cases full : kept.length + 1 > limit
 · rw [if_pos full, queue.length_pop]
   omega
 · rw [if_neg full, length_cons]
   omega

variable {items dropped : List Item}

theorem Selected.best_pop {item : Item} (selected : Selected less limit items kept dropped)
 (order : StrictWeakOrder less (item :: (kept ++ dropped))) :
 ∀ one ∈ (queue.pop less item kept).2, ∀ other ∈ (queue.pop less item kept).1 :: dropped,
  less other one = false := by
 have inQueue : item :: kept ⊆ item :: (kept ++ dropped) :=
  cons_subset_cons item (subset_append_left kept dropped)
 have popped := queue.perm less item kept
 have worst := queue.worst less item kept (order.subset inQueue)
 generalize queue.pop less item kept = result at popped worst ⊢
 obtain ⟨top, rest⟩ := result
 intro one inRest other inDropped
 have inOffered : one ∈ item :: kept := popped.mem_iff.mp (mem_cons_of_mem _ inRest)
 rcases mem_cons.mp inDropped with isTop | old
 · rw [isTop]
   exact worst one inOffered
 · rcases mem_cons.mp inOffered with isItem | inKept
   · have inTop : top ∈ item :: kept := popped.mem_iff.mp mem_cons_self
     have otherIn := mem_cons_of_mem item (mem_append_right kept old)
     rcases mem_cons.mp inTop with topIsItem | topInKept
     · rw [topIsItem] at popped
       exact selected.best one (popped.cons_inv.mem_iff.mp inRest) other old
     · exact order.negTrans other otherIn top (inQueue inTop) one (inQueue inOffered)
        (selected.best top topInKept other old) (worst one inOffered)
   · exact selected.best one inKept other old

theorem Selected.offer {item : Item} (selected : Selected less limit items kept dropped)
 (order : StrictWeakOrder less (items ++ [item])) :
 ∃ others, Selected less limit (items ++ [item]) (offer queue less limit kept item) others := by
 have whole : (item :: (kept ++ dropped)).Perm (items ++ [item]) :=
  (selected.perm.cons item).trans (perm_append_singleton item items).symm
 have sizes := selected.perm.length_eq
 rw [length_append] at sizes
 have keptLength := selected.length
 have length : (BoundedSelection.offer queue less limit kept item).length =
  min limit (items ++ [item]).length := by
  rw [length_offer (by omega), length_append, length_singleton]
  omega
 unfold BoundedSelection.offer at length ⊢
 by_cases full : kept.length + 1 > limit
 · rw [if_pos full] at length ⊢
   refine ⟨(queue.pop less item kept).1 :: dropped, ?_, length, ?_⟩
   · have popped := (queue.perm less item kept).append_right dropped
     exact (perm_middle.trans popped).trans whole
   · exact selected.best_pop (order.subset whole.subset)
 · rw [if_neg full] at length ⊢
   have empty : dropped = [] := eq_nil_of_length_eq_zero (by omega)
   subst empty
   exact ⟨[], whole, length, fun _ _ _ impossible => by cases impossible⟩

theorem length_foldl_offer (bound : kept.length ≤ limit) (items : List Item) :
 (items.foldl (offer queue less limit) kept).length =
  min limit (kept.length + items.length) := by
 induction items generalizing kept with
 | nil =>
  simp_all
 | cons item items ih =>
  have length : (offer queue less limit kept item).length =
   min limit (kept.length + 1) := length_offer bound item
  rw [foldl_cons, ih (by omega), length, length_cons]
  omega

theorem exists_selected (queue : PriorityQueue Item) (limit : ℕ)
 (order : StrictWeakOrder less items) :
 ∃ dropped, Selected less limit items (items.foldl (offer queue less limit) []) dropped := by
 induction items using List.reverseRecOn with
 | nil => exact ⟨[], selected_nil limit⟩
 | append_singleton items item ih =>
  obtain ⟨dropped, selected⟩ := ih (order.subset (subset_append_left _ _))
  rw [foldl_append, foldl_cons, foldl_nil]
  exact selected.offer order

theorem unload_perm (kept stack : List Item) :
 (unload queue less kept.length kept stack).Perm (kept ++ stack) := by
 induction bound : kept.length generalizing kept stack with
 | zero =>
  rw [eq_nil_of_length_eq_zero bound]
  exact List.Perm.refl _
 | succ size ih =>
  cases kept with
  | nil => cases bound
  | cons item kept =>
   have popped := queue.perm less item kept
   have length : (queue.pop less item kept).2.length = size :=
    (queue.length_pop less item kept).trans (Nat.succ.inj bound)
   exact (ih _ _ length).trans (perm_middle.trans (popped.append_right stack))

theorem unload_append (size : ℕ) (kept stack : List Item) :
 unload queue less size kept stack = unload queue less size kept [] ++ stack := by
 induction size generalizing kept stack with
 | zero => rfl
 | succ size ih =>
  cases kept with
  | nil => rfl
  | cons item kept =>
   rw [unload, unload, ih _ (_ :: stack), ih _ [_], append_assoc]
   rfl

theorem unload_ordered {stack : List Item} (order : StrictWeakOrder less kept)
 (ordered : Ordered less stack) (apart : ∀ item ∈ kept, ∀ other ∈ stack, less other item = false)
 :
 Ordered less (unload queue less kept.length kept stack) := by
 induction bound : kept.length generalizing kept stack with
 | zero => exact ordered
 | succ size ih =>
  cases kept with
  | nil => cases bound
  | cons item kept =>
   have popped := queue.perm less item kept
   have worst := queue.worst less item kept order
   have length : (queue.pop less item kept).2.length = size :=
    (queue.length_pop less item kept).trans (Nat.succ.inj bound)
   unfold unload
   generalize queue.pop less item kept = result at popped worst length ⊢
   obtain ⟨top, rest⟩ := result
   have inside : ∀ other ∈ rest, other ∈ item :: kept :=
    fun other member => popped.mem_iff.mp (mem_cons_of_mem _ member)
   have inTop : top ∈ item :: kept := popped.mem_iff.mp mem_cons_self
   have below : ∀ one ∈ rest, ∀ other ∈ top :: stack, less other one = false := by
    intro one inRest other inStack
    rcases mem_cons.mp inStack with isTop | old
    · grind
    · exact apart one (inside one inRest) other old
   have stacked : Ordered less (top :: stack) :=
    pairwise_cons.mpr ⟨fun other member => apart top inTop other member, ordered⟩
   exact ih (order.subset inside) stacked below length

def PriorityQueue.sorter (queue : PriorityQueue Item) : Sorter Item where
 sort less items := unload queue less items.length items []
 perm less items := by
  have perm : (unload queue less items.length items []).Perm (items ++ []) :=
   unload_perm items []
  rwa [append_nil] at perm
 ordered _ _ order :=
  unload_ordered order List.Pairwise.nil fun _ _ _ impossible => by cases impossible

theorem Selected.map_take_sort {top : List Item} {keyOf : Item → Key}
 (selected : Selected less limit items kept dropped) (order : StrictWeakOrder less items)
 (sorter : Sorter Item) (perm : top.Perm kept) (ordered : Ordered less top)
 (connected : ∀ one ∈ items, ∀ other ∈ items, less one other = false →
  less other one = false → keyOf one = keyOf other)
 (congr : ∀ one other again otherAgain, keyOf one = keyOf again →
  keyOf other = keyOf otherAgain → less one other = less again otherAgain) :
 ((sorter.sort less items).take limit).map keyOf = top.map keyOf := by
 have droppedPerm := sorter.perm less dropped
 have droppedOrder : StrictWeakOrder less dropped := order.subset fun item member =>
  selected.perm.mem_iff.mp (mem_append_right _ member)
 have whole : (top ++ sorter.sort less dropped).Perm items :=
  (perm.append droppedPerm).trans selected.perm
 have wholeOrdered : Ordered less (top ++ sorter.sort less dropped) := by
  refine pairwise_append.mpr
   ⟨ordered, sorter.ordered less dropped droppedOrder, fun one inTop other inSorted => ?_⟩
  exact selected.best one (perm.mem_iff.mp inTop) other (droppedPerm.mem_iff.mp inSorted)
 have sorted := sorter.perm less items
 have same : (sorter.sort less items).map keyOf = (top ++ sorter.sort less dropped).map keyOf := by
  refine Ordered.map_eq (sorted.trans whole.symm) (sorter.ordered less items order) wholeOrdered
   (fun one inOne other inOther => ?_) congr
  exact connected one (sorted.mem_iff.mp inOne) other (sorted.mem_iff.mp inOther)
 have length : top.length = min limit (sorter.sort less items).length := by
  rw [perm.length_eq, selected.length, sorted.length_eq]
 rw [take_eq_take_min, ← length, map_take, same, map_append,
  ← length_map (f := keyOf), take_left]

theorem eq_of_map_eq {keyOf : Item → Key} {first second : List Item}
 (injective : ∀ one ∈ first, ∀ other ∈ second, keyOf one = keyOf other → one = other)
 (same : first.map keyOf = second.map keyOf) : first = second := by
 induction first generalizing second with
 | nil => exact (map_eq_nil_iff.mp same.symm).symm
 | cons one rest ih =>
  cases second with
  | nil => cases same
  | cons other others =>
   grind

end Queue

/-! ### A queue that looks at every item -/

def popWorst (less : Item → Item → Bool) : Item → List Item → Item × List Item
 | item, [] => (item, [])
 | item, other :: items =>
  if less item other then
   ((popWorst less other items).1, item :: (popWorst less other items).2)
  else ((popWorst less item items).1, other :: (popWorst less item items).2)

theorem popWorst_perm (less : Item → Item → Bool) (item : Item) (items : List Item) :
 ((popWorst less item items).1 :: (popWorst less item items).2).Perm (item :: items) := by
 induction items generalizing item with
 | nil => exact List.Perm.refl _
 | cons other items ih =>
  rw [popWorst]
  by_cases better : less item other = true
  · rw [if_pos better]
    exact (List.Perm.swap _ _ _).trans ((ih other).cons item)
  · rw [if_neg better]
    exact (List.Perm.swap _ _ _).trans (((ih item).cons other).trans (List.Perm.swap _ _ _))

theorem popWorst_worst {less : Item → Item → Bool} {item : Item} {items : List Item}
 (order : StrictWeakOrder less (item :: items)) :
 ∀ other ∈ item :: items, less (popWorst less item items).1 other = false := by
 induction items generalizing item with
 | nil =>
  intro other member
  rw [mem_singleton.mp member]
  exact order.irrefl mem_cons_self
 | cons next items ih =>
  have inItem : item ∈ item :: next :: items := mem_cons_self
  have inNext : next ∈ item :: next :: items := mem_cons_of_mem _ mem_cons_self
  rw [popWorst]
  by_cases better : less item next = true
  · rw [if_pos better]
    have smaller : next :: items ⊆ item :: next :: items := subset_cons_self _ _
    have later := ih (order.subset smaller)
    have inTop := smaller ((popWorst_perm less next items).mem_iff.mp mem_cons_self)
    intro other member
    rcases mem_cons.mp member with isItem | inItems
    · rw [isItem]
      exact order.negTrans _ inTop next inNext item inItem (later next mem_cons_self)
       (order.asymm item inItem next inNext better)
    · exact later other inItems
  · rw [if_neg better]
    have smaller : item :: items ⊆ item :: next :: items := by
     intro other member
     rcases mem_cons.mp member with isItem | inItems
     · exact isItem ▸ inItem
     · simp_all
    have later := ih (order.subset smaller)
    have inTop := smaller ((popWorst_perm less item items).mem_iff.mp mem_cons_self)
    intro other member
    rcases mem_cons.mp member with isItem | inItems
    · simp_all
    · rcases mem_cons.mp inItems with isNext | inRest
      · rw [isNext]
        exact order.negTrans _ inTop item inItem next inNext (later item mem_cons_self)
         (Bool.eq_false_iff.mpr better)
      · simp_all

def scanQueue (Item : Type*) : PriorityQueue Item where
 pop := popWorst
 perm := popWorst_perm
 worst _ _ _ := popWorst_worst

end MyNotes.Library.BoundedSelection
