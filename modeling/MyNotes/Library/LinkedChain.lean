/-
Chains of linked nodes.

`next` is the field of the nodes that links them.  `Chain next p l` says that the nodes of
`l` follow `p`, up to the end, and `finish p l` is the last node of the two.
-/

import Mathlib.Data.List.Nodup

namespace MyNotes.Library.LinkedChain

open List

variable {Id : Type*} {next other : Id → Option Id}

def Chain (next : Id → Option Id) : Id → List Id → Prop
 | p, [] => next p = none
 | p, q :: rest => next p = some q ∧ Chain next q rest

def finish : Id → List Id → Id
 | p, [] => p
 | _, q :: rest => finish q rest

theorem finish_mem (p : Id) (l : List Id) : finish p l ∈ p :: l := by
 induction l generalizing p with
 | nil => exact mem_singleton_self p
 | cons q rest ih => exact mem_cons_of_mem p (ih q)

theorem finish_append (p : Id) (front back : List Id) :
 finish p (front ++ back) = finish (finish p front) back := by
 induction front generalizing p with
 | nil => rfl
 | cons q rest ih => exact ih q

variable {p : Id} {l : List Id}

theorem Chain.congr (chain : Chain next p l) (same : ∀ i ∈ p :: l, other i = next i) :
 Chain other p l := by
 induction l generalizing p with
 | nil => exact (same p mem_cons_self).trans chain
 | cons q rest ih =>
  exact ⟨(same p mem_cons_self).trans chain.1,
   ih chain.2 fun i member => same i (mem_cons_of_mem p member)⟩

theorem Chain.suffix {front back : List Id} (chain : Chain next p (front ++ back)) :
 Chain next (finish p front) back := by
 induction front generalizing p with
 | nil => exact chain
 | cons q rest ih => exact ih chain.2

theorem Chain.head? (chain : Chain next p l) : next p = l.head? := by
 cases l with
 | nil => exact chain
 | cons q rest => exact chain.1

theorem Chain.next_mem {i j : Id} (chain : Chain next p l) (member : i ∈ p :: l)
 (follows : next i = some j) : j ∈ l := by
 induction l generalizing p with
 | nil =>
  rw [mem_singleton.mp member, show next p = none from chain] at follows
  cases follows
 | cons q rest ih =>
  rcases mem_cons.mp member with isFirst | later
  · rw [isFirst, chain.1] at follows
    cases follows
    exact mem_cons_self
  · exact mem_cons_of_mem q (ih chain.2 later)

theorem Chain.insert {p new : Id} {front back : List Id} (chain : Chain next p (front ++ back))
 (nodup : (p :: (front ++ back)).Nodup) (enters : other (finish p front) = some new)
 (follows : other new = next (finish p front))
 (same : ∀ i ∈ p :: (front ++ back), i ≠ finish p front → other i = next i) :
 Chain other p (front ++ new :: back) := by
 induction front generalizing p with
 | nil =>
  refine ⟨enters, ?_⟩
  have head : other new = back.head? := follows.trans chain.head?
  cases back with
  | nil => exact head
  | cons q rest =>
   refine ⟨head, chain.2.congr fun i member => same i (mem_cons_of_mem p member) ?_⟩
   exact ne_of_mem_of_not_mem member (nodup_cons.mp nodup).1
 | cons q rest ih =>
  obtain ⟨first, chain⟩ := chain
  obtain ⟨notLater, nodup⟩ := nodup_cons.mp nodup
  have different : p ≠ finish q rest :=
   (ne_of_mem_of_not_mem (mem_append_left back (finish_mem q rest)) notLater).symm
  refine ⟨(same p mem_cons_self different).trans first,
   ih chain nodup enters follows fun i member => same i (mem_cons_of_mem p member)⟩

theorem Chain.unlink {gone : Id} {front back : List Id}
 (chain : Chain next p (front ++ gone :: back)) (nodup : (p :: (front ++ gone :: back)).Nodup)
 (skips : other (finish p front) = next gone)
 (same : ∀ i ∈ p :: (front ++ gone :: back), i ≠ finish p front → other i = next i) :
 Chain other p (front ++ back) := by
 induction front generalizing p with
 | nil =>
  obtain ⟨-, chain⟩ := chain
  have head : other p = back.head? := skips.trans chain.head?
  cases back with
  | nil => exact head
  | cons q rest =>
   refine ⟨head, chain.2.congr fun i member => ?_⟩
   have inside : i ∈ gone :: q :: rest := mem_cons_of_mem gone member
   refine same i (mem_cons_of_mem p inside) ?_
   exact ne_of_mem_of_not_mem inside (nodup_cons.mp nodup).1
 | cons q rest ih =>
  obtain ⟨first, chain⟩ := chain
  obtain ⟨notLater, nodup⟩ := nodup_cons.mp nodup
  have different : p ≠ finish q rest :=
   (ne_of_mem_of_not_mem (mem_append_left _ (finish_mem q rest)) notLater).symm
  exact ⟨(same p mem_cons_self different).trans first,
   ih chain nodup skips fun i member => same i (mem_cons_of_mem p member)⟩

theorem Chain.unique {m : List Id} (chain : Chain next p l) (again : Chain next p m) : l = m := by
 induction l generalizing p m with
 | nil =>
  cases m with
  | nil => rfl
  | cons q rest =>
   have follows := again.1
   rw [show next p = none from chain] at follows
   cases follows
 | cons q rest ih =>
  obtain ⟨follows, chain⟩ := chain
  cases m with
  | nil =>
   rw [show next p = none from again] at follows
   cases follows
  | cons other others =>
   obtain ⟨otherFollows, again⟩ := again
   grind

/-! ### The nodes from a pointer on -/

def From (next : Id → Option Id) (head : Option Id) : List Id → Prop
 | [] => head = none
 | p :: rest => head = some p ∧ Chain next p rest

section From

variable {head : Option Id} {l m : List Id}

theorem From.head? (linked : From next head l) : head = l.head? := by
 cases l with
 | nil => exact linked
 | cons p rest => exact linked.1

theorem From.rest (linked : From next head (p :: l)) : From next (next p) l := by
 obtain ⟨-, chain⟩ := linked
 cases l with
 | nil => exact chain
 | cons q rest => exact chain

theorem From.congr (linked : From next head l) (same : ∀ i ∈ l, other i = next i) :
 From other head l := by
 cases l with
 | nil => exact linked
 | cons p rest => exact ⟨linked.1, linked.2.congr same⟩

theorem From.unique (linked : From next head l) (again : From next head m) : l = m := by
 have heads : l.head? = m.head? := linked.head?.symm.trans again.head?
 cases l with
 | nil =>
  cases m with
  | nil => rfl
  | cons _ _ => cases heads
 | cons p rest =>
  cases m with
  | nil => cases heads
  | cons q others =>
   cases Option.some.inj heads
   rw [linked.2.unique again.2]

end From

end MyNotes.Library.LinkedChain
