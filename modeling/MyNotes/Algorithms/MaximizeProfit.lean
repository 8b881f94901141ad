/-
`maximizeProfit`: orders with deadlines, of which one is done in each unit of time.
-/

import MyNotes.Library.BoundedSelection
import Mathlib

namespace MyNotes.Algorithms.MaximizeProfit

open Library.BoundedSelection List Prod

structure Order where
 deadline : ℕ
 profit : ℕ

def compareOrders (a b : Order) : Bool := a.deadline < b.deadline

/-- One turn of the loop, on the elements of `minHeap` and `totalProfit`. -/
def step (state : List ℕ × ℕ) (order : Order) : List ℕ × ℕ :=
 if state.1.length < order.deadline then (order.profit :: state.1, state.2 + order.profit)
 else match state.1.min? with
  | none => state
  | some top =>
   if order.profit > top then
    (order.profit :: state.1.erase top, state.2 + (order.profit - top))
   else state

def maximizeProfit (sorter : Sorter Order) (orders : List Order) : ℕ :=
 ((sorter.sort compareOrders orders).foldl step ([], 0)).2

/-- Each order is done in a unit of time of its own that ends by its deadline. -/
def Schedulable (chosen : List Order) : Prop :=
 ∃ plan : List (Order × ℕ), (plan.map Prod.fst).Perm chosen ∧ (plan.map Prod.snd).Nodup ∧
  ∀ entry ∈ plan, 1 ≤ entry.2 ∧ entry.2 ≤ entry.1.deadline

def profitOf (chosen : List Order) : ℕ := (chosen.map Order.profit).sum

/-! ### Schedules -/

variable {chosen seen : List Order} {order : Order} {last : ℕ} {other : List Order}

theorem Schedulable.perm (schedulable : Schedulable chosen) (perm : chosen.Perm other) :
 Schedulable other := by
 obtain ⟨plan, orders, times, inTime⟩ := schedulable
 exact ⟨plan, orders.trans perm, times, inTime⟩

theorem Schedulable.of_cons (schedulable : Schedulable (order :: chosen)) : Schedulable chosen := by
 obtain ⟨plan, orders, times, inTime⟩ := schedulable
 obtain ⟨entry, member, rfl⟩ := mem_map.mp (orders.mem_iff.mpr mem_cons_self)
 obtain ⟨front, back, rfl⟩ := append_of_mem member
 refine ⟨front ++ back, ?_, ?_, fun other member => inTime other ?_⟩
 · exact ((perm_middle.symm.map fst).trans orders).cons_inv
 · exact times.sublist ((sublist_cons_self entry back).append_left front |>.map snd)
 · exact ((sublist_cons_self entry back).append_left front).subset member

theorem Schedulable.length_le (schedulable : Schedulable chosen)
 (deadlines : ∀ order ∈ chosen, order.deadline ≤ last) : chosen.length ≤ last := by
 obtain ⟨plan, orders, times, inTime⟩ := schedulable
 have inside : plan.map snd ⊆ range' 1 last := by
  intro time member
  obtain ⟨entry, own, rfl⟩ := mem_map.mp member
  have bounds := inTime entry own
  have := deadlines entry.1 (orders.mem_iff.mp (mem_map_of_mem own))
  rw [mem_range'_1]
  omega
 have := (subperm_of_subset times inside).length_le
 rw [length_map, length_range'] at this
 rwa [← orders.length_eq, length_map]

/-- An order whose deadline is the last fits in when there are fewer orders before it. -/
theorem Schedulable.cons (schedulable : Schedulable chosen)
 (room : chosen.length < order.deadline) :
 Schedulable (order :: chosen) := by
 obtain ⟨plan, orders, times, inTime⟩ := schedulable
 obtain ⟨time, inside, free⟩ : ∃ time ∈ range' 1 order.deadline, time ∉ plan.map snd := by
  by_contra none
  push Not at none
  have := (subperm_of_subset ((nodup_range' : (range' 1 order.deadline).Nodup)) none).length_le
  rw [length_range', length_map, ← length_map fst, orders.length_eq] at this
  omega
 rw [mem_range'_1] at inside
 refine ⟨(order, time) :: plan, orders.cons order, times.cons free, ?_⟩
 intro entry member
 rcases mem_cons.mp member with rfl | member
 · exact ⟨inside.1, by dsimp only; omega⟩
 · exact inTime entry member

/-! ### The loop -/

/-- The heap holds the profits of a schedule that is as good as any, also among the schedules of
so many orders. -/
structure Optimal (seen : List Order) (state : List ℕ × ℕ) : Prop where
 held : ∃ chosen, chosen <+~ seen ∧ Schedulable chosen ∧ (chosen.map Order.profit).Perm state.1
 dominates : ∀ other, other <+~ seen → Schedulable other →
  ∃ part : Multiset ℕ, part ≤ state.1 ∧ part.card = other.length ∧ profitOf other ≤ part.sum
 total : state.2 = state.1.sum

/-- Profits of which some are left out can do without the least one. -/
theorem exists_le_of_card_le {part rest : Multiset ℕ} {top : ℕ} (inside : part ≤ top ::ₘ rest)
 (fewer : part.card ≤ rest.card) (least : ∀ profit ∈ rest, top ≤ profit) :
 ∃ other ≤ rest, other.card = part.card ∧ part.sum ≤ other.sum := by
 by_cases member : top ∈ part
 · obtain ⟨part, rfl⟩ := Multiset.exists_cons_of_mem member
   have below := (Multiset.cons_le_cons_iff top).mp inside
   have proper : part < rest := lt_of_le_of_ne below fun same => by
    rw [same, Multiset.card_cons] at fewer
    omega
   obtain ⟨profit, more⟩ := Multiset.lt_iff_cons_le.mp proper
   refine ⟨profit ::ₘ part, more, by simp, ?_⟩
   have := least profit (Multiset.mem_of_le more (Multiset.mem_cons_self _ _))
   rw [Multiset.sum_cons, Multiset.sum_cons]
   omega
 · exact ⟨part, (Multiset.le_cons_of_notMem member).mp inside, rfl, le_rfl⟩

theorem subperm_cons_cases (part : other <+~ order :: seen) :
 other <+~ seen ∨ ∃ rest, other.Perm (order :: rest) ∧ rest <+~ seen := by
 obtain ⟨list, perm, sublist⟩ := part
 rcases sublist_cons_iff.mp sublist with within | ⟨rest, rfl, within⟩
 · exact .inl ⟨list, perm, within⟩
 · exact .inr ⟨rest, perm.symm, within.subperm⟩

theorem profitOf_perm (perm : chosen.Perm other) :
 profitOf chosen = profitOf other := (perm.map _).sum_eq

variable {state : List ℕ × ℕ}

theorem Optimal.length_le (optimal : Optimal seen state)
 (deadlines : ∀ order ∈ seen, order.deadline ≤ last) : state.1.length ≤ last := by
 obtain ⟨chosen, part, schedulable, perm⟩ := optimal.held
 rw [← perm.length_eq, length_map]
 exact schedulable.length_le fun order member => deadlines order (part.subset member)

theorem profitOf_cons (order : Order) (chosen : List Order) :
 profitOf (order :: chosen) = order.profit + profitOf chosen := rfl

/-- There is room for the order. -/
theorem Optimal.push (optimal : Optimal seen state) (room : state.1.length < order.deadline) :
 Optimal (order :: seen) (order.profit :: state.1, state.2 + order.profit) := by
 refine ⟨?_, fun other part schedulable => ?_, ?_⟩
 · obtain ⟨chosen, part, schedulable, perm⟩ := optimal.held
   have fewer : chosen.length < order.deadline := by
    rwa [← length_map Order.profit, perm.length_eq]
   exact ⟨order :: chosen, (subperm_cons order).mpr part, schedulable.cons fewer, perm.cons _⟩
 · rcases subperm_cons_cases part with part | ⟨rest, perm, part⟩
   · obtain ⟨best, inside, card, most⟩ := optimal.dominates other part schedulable
     exact ⟨best, inside.trans (Multiset.le_cons_self _ _), card, most⟩
   · obtain ⟨best, inside, card, most⟩ :=
      optimal.dominates rest part (schedulable.perm perm).of_cons
     refine ⟨order.profit ::ₘ best, Multiset.cons_le_cons _ inside, ?_, ?_⟩
     · rw [Multiset.card_cons, card, perm.length_eq, length_cons]
     · rw [profitOf_perm perm, profitOf_cons, Multiset.sum_cons]
       omega
 · rw [sum_cons, optimal.total, Nat.add_comm]

/-- The heap is full, and has its least profit on top. -/
structure Full (state : List ℕ × ℕ) (order : Order) (top : ℕ) : Prop where
 full : order.deadline ≤ state.1.length
 member : top ∈ state.1
 least : ∀ profit ∈ state.1, top ≤ profit

theorem Full.perm {top : ℕ} (full : Full state order top) :
 (state.1 : Multiset ℕ) = top ::ₘ (state.1.erase top : List ℕ) :=
 Multiset.coe_eq_coe.mpr (perm_cons_erase full.member)

section

variable {state : List ℕ × ℕ} (optimal : Optimal seen state)
include optimal

/-- The best profits for the orders of a schedule with the new order, but for that one. -/
theorem Optimal.exists_rest {top : ℕ} {other rest : List Order} (full : Full state order top)
 (deadlines : ∀ earlier ∈ seen, earlier.deadline ≤ order.deadline) (schedulable : Schedulable other)
 (perm : other.Perm (order :: rest)) (part : rest <+~ seen) :
 ∃ best ≤ (state.1.erase top : Multiset ℕ), best.card = rest.length ∧
  profitOf rest ≤ best.sum := by
 have whole := schedulable.perm perm
 obtain ⟨best, inside, card, most⟩ := optimal.dominates rest part whole.of_cons
 have short : (order :: rest).length ≤ order.deadline := whole.length_le fun each member => by
  rcases mem_cons.mp member with rfl | member
  · exact le_rfl
  · exact deadlines each (part.subset member)
 rw [full.perm] at inside
 have fewer : best.card ≤ Multiset.card (state.1.erase top : Multiset ℕ) := by
  have := full.full
  rw [Multiset.coe_card, length_erase_of_mem full.member, card]
  rw [length_cons] at short
  omega
 obtain ⟨better, within, same, more⟩ := exists_le_of_card_le inside fewer fun profit member =>
  full.least profit (mem_of_mem_erase member)
 exact ⟨better, within, same.trans card, most.trans more⟩

/-- The order takes the place of the one with the least profit. -/
theorem Optimal.replace {top : ℕ} (full : Full state order top)
 (deadlines : ∀ earlier ∈ seen, earlier.deadline ≤ order.deadline) (more : top < order.profit) :
 Optimal (order :: seen)
  (order.profit :: state.1.erase top, state.2 + (order.profit - top)) := by
 refine ⟨?_, fun other part schedulable => ?_, ?_⟩
 · have bound := optimal.length_le deadlines
   obtain ⟨chosen, part, schedulable, perm⟩ := optimal.held
   obtain ⟨dropped, member, rfl⟩ := mem_map.mp (perm.mem_iff.mpr full.member)
   obtain ⟨front, back, rfl⟩ := append_of_mem member
   have middle : (front ++ dropped :: back).Perm (dropped :: (front ++ back)) := perm_middle
   have fewer : (front ++ back).length < order.deadline := by
    have := middle.length_eq
    rw [← perm.length_eq, length_map] at bound
    rw [length_cons] at this
    omega
   refine ⟨order :: (front ++ back), (subperm_cons order).mpr ?_,
    (schedulable.perm middle).of_cons.cons fewer, ?_⟩
   · exact ((sublist_cons_self dropped _).subperm.trans middle.symm.subperm).trans part
   · exact (((middle.map Order.profit).symm.trans perm).trans
      (perm_cons_erase full.member)).cons_inv.cons _
 · rcases subperm_cons_cases part with part | ⟨rest, perm, part⟩
   · obtain ⟨best, inside, card, most⟩ := optimal.dominates other part schedulable
     rw [full.perm] at inside
     by_cases member : top ∈ best
     · obtain ⟨best, rfl⟩ := Multiset.exists_cons_of_mem member
       refine ⟨order.profit ::ₘ best,
        Multiset.cons_le_cons _ ((Multiset.cons_le_cons_iff top).mp inside), ?_, ?_⟩
       · rw [← card, Multiset.card_cons, Multiset.card_cons]
       · rw [Multiset.sum_cons] at most ⊢
         omega
     · exact ⟨best, ((Multiset.le_cons_of_notMem member).mp inside).trans
        (Multiset.le_cons_self _ _), card, most⟩
   · obtain ⟨best, inside, card, most⟩ :=
      optimal.exists_rest full deadlines schedulable perm part
     refine ⟨order.profit ::ₘ best, Multiset.cons_le_cons _ inside, ?_, ?_⟩
     · rw [Multiset.card_cons, card, perm.length_eq, length_cons]
     · rw [profitOf_perm perm, profitOf_cons, Multiset.sum_cons]
       omega
 · have sum := (perm_cons_erase full.member).sum_eq
   rw [sum_cons] at sum ⊢
   rw [optimal.total]
   omega

/-- The order is dropped when every schedule with it has one without it that is as good. -/
theorem Optimal.keep
 (dominated : ∀ other rest, Schedulable other → other.Perm (order :: rest) → rest <+~ seen →
  ∃ part : Multiset ℕ, part ≤ state.1 ∧ part.card = rest.length + 1 ∧
   order.profit + profitOf rest ≤ part.sum) : Optimal (order :: seen) state := by
 refine ⟨?_, fun other part schedulable => ?_, optimal.total⟩
 · obtain ⟨chosen, part, held⟩ := optimal.held
   exact ⟨chosen, part.trans (sublist_cons_self order seen).subperm, held⟩
 · rcases subperm_cons_cases part with part | ⟨rest, perm, part⟩
   · exact optimal.dominates other part schedulable
   · rw [perm.length_eq, profitOf_perm perm]
     exact dominated other rest schedulable perm part

theorem Optimal.drop {top : ℕ} (full : Full state order top)
 (deadlines : ∀ earlier ∈ seen, earlier.deadline ≤ order.deadline) (less : order.profit ≤ top) :
 Optimal (order :: seen) state := by
 refine optimal.keep fun other rest schedulable perm part => ?_
 obtain ⟨best, inside, card, most⟩ := optimal.exists_rest full deadlines schedulable perm part
 refine ⟨top ::ₘ best, full.perm ▸ Multiset.cons_le_cons top inside, ?_, ?_⟩
 · rw [Multiset.card_cons, card]
 · rw [Multiset.sum_cons]
   omega

theorem Optimal.step (deadlines : ∀ earlier ∈ seen, earlier.deadline ≤ order.deadline) :
 Optimal (order :: seen) (step state order) := by
 unfold MaximizeProfit.step
 by_cases room : state.1.length < order.deadline
 · rw [if_pos room]
   exact optimal.push room
 · rw [if_neg room]
   cases found : state.1.min? with
   | none =>
    have empty := min?_eq_none_iff.mp found
    rw [empty, length_nil] at room
    -- The heap is full and empty, so nothing can be done by the deadline.
    refine optimal.keep fun other rest schedulable perm part => ?_
    have none : (order :: rest).length ≤ 0 :=
     (schedulable.perm perm).length_le fun each member => by
      rcases mem_cons.mp member with rfl | member
      · omega
      · have := deadlines each (part.subset member)
        omega
    cases none
   | some top =>
    obtain ⟨member, least⟩ := min?_eq_some_iff.mp found
    have full : Full state order top := ⟨Nat.le_of_not_lt room, member, least⟩
    dsimp only
    by_cases more : order.profit > top
    · rw [if_pos more]
      exact optimal.replace full deadlines more
    · rw [if_neg more]
      exact optimal.drop full deadlines (Nat.le_of_not_lt more)

end

theorem optimal_foldl {orders : List Order}
 (sorted : orders.Pairwise fun earlier later => earlier.deadline ≤ later.deadline) :
 Optimal orders.reverse (orders.foldl MaximizeProfit.step ([], 0)) := by
 induction orders using List.reverseRecOn with
 | nil =>
  refine ⟨⟨[], Subperm.refl _, ⟨[], .refl _, nodup_nil, by simp⟩, .refl _⟩, ?_, rfl⟩
  intro other part _
  rw [subperm_nil.mp part]
  exact ⟨0, le_rfl, rfl, le_rfl⟩
 | append_singleton orders order ih =>
  obtain ⟨earlier, -, later⟩ := pairwise_append.mp sorted
  rw [foldl_append, reverse_append]
  exact (ih earlier).step fun other member =>
   later other (mem_reverse.mp member) order mem_cons_self

/-- The state of the loop is that of a schedule of the orders seen, and no other one has a higher
profit. -/
def Best (seen : List Order) (state : List ℕ × ℕ) : Prop :=
 (∃ chosen, chosen <+~ seen ∧ Schedulable chosen ∧ (chosen.map Order.profit).Perm state.1 ∧
  profitOf chosen = state.2) ∧
 state.2 = state.1.sum ∧
 ∀ other, other <+~ seen → Schedulable other → profitOf other ≤ state.2

theorem Optimal.best (optimal : Optimal seen state) : Best seen state := by
 refine ⟨?_, optimal.total, fun other part schedulable => ?_⟩
 · obtain ⟨chosen, part, schedulable, perm⟩ := optimal.held
   exact ⟨chosen, part, schedulable, perm, perm.sum_eq.trans optimal.total.symm⟩
 · obtain ⟨best, inside, -, most⟩ := optimal.dominates other part schedulable
   obtain ⟨others, split⟩ := Multiset.le_iff_exists_add.mp inside
   have sum := congrArg Multiset.sum split
   rw [Multiset.sum_coe, Multiset.sum_add] at sum
   rw [optimal.total]
   omega

theorem Best.perm (best : Best seen state) (perm : seen.Perm other) : Best other state := by
 obtain ⟨⟨chosen, part, held⟩, total, most⟩ := best
 exact ⟨⟨chosen, part.trans perm.subperm, held⟩, total,
  fun each part => most each (part.trans perm.symm.subperm)⟩

/-- After each turn of the loop the heap is that of a best schedule of the orders seen, so the
result is the profit of a best schedule of all. -/
theorem maximizeProfit_correct (sorter : Sorter Order) (orders : List Order) :
 ((∃ chosen, chosen <+~ orders ∧ Schedulable chosen ∧
  profitOf chosen = maximizeProfit sorter orders) ∧
  ∀ other, other <+~ orders → Schedulable other →
   profitOf other ≤ maximizeProfit sorter orders) ∧
 ∀ seen rest, sorter.sort compareOrders orders = seen ++ rest →
  Best seen (seen.foldl step ([], 0)) := by
 have sorted : (sorter.sort compareOrders orders).Pairwise
  fun earlier later => earlier.deadline ≤ later.deadline := by
  refine (sorter.ordered compareOrders orders ⟨?_, ?_⟩).imp fun less => ?_
  · intro first _ second _ less
    simp only [compareOrders, decide_eq_true_iff, decide_eq_false_iff_not] at *
    omega
  · intro first _ second _ third _ less more
    simp only [compareOrders, decide_eq_false_iff_not] at *
    omega
  · exact Nat.le_of_not_lt (of_decide_eq_false less)
 have each : ∀ seen rest, sorter.sort compareOrders orders = seen ++ rest →
  Best seen (seen.foldl step ([], 0)) := by
  intro seen rest split
  rw [split] at sorted
  exact (optimal_foldl (pairwise_append.mp sorted).1).best.perm (reverse_perm seen)
 obtain ⟨⟨chosen, part, schedulable, -, profit⟩, -, most⟩ :=
  (each _ [] (append_nil _).symm).perm (sorter.perm compareOrders orders)
 exact ⟨⟨⟨chosen, part, schedulable, profit⟩, most⟩, each⟩

end MyNotes.Algorithms.MaximizeProfit
