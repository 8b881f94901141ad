/-
Cutting a sorted list by a threshold predicate.

A binary search on a sorted range returns the first item that fails a predicate
which, once it fails, keeps failing.  On a list that is `takeWhile` and
`dropWhile`; the lemma below is the fact the search relies on.
-/

import Mathlib.Algebra.GroupWithZero.Nat
import Mathlib.Data.List.Forall2
import Mathlib.Data.List.TakeWhile

namespace MyNotes.Library.SortedCut

open List

variable {α : Type*}

variable {before : α → α → Prop} {items : List α}

theorem eq_false_of_mem_dropWhile (test : α → Bool) (sorted : items.Pairwise before)
 (passed_on : ∀ left right, before left right →
  test left = false → test right = false) :
 ∀ item ∈ items.dropWhile test, test item = false := by
 induction sorted with
 | nil => intro item member; cases member
 | @cons head tail headTail _ ih =>
  intro item member
  rw [dropWhile_cons] at member
  by_cases kept : test head = true
  · simp_all
  · have failed : test head = false := Bool.eq_false_iff.mpr kept
    rw [if_neg kept] at member
    rcases mem_cons.mp member with same | later
    · subst item; exact failed
    · grind

theorem cut_congr {test other : α → Bool} (same : ∀ item ∈ items, test item = other item) :
 items.takeWhile test = items.takeWhile other ∧
  items.dropWhile test = items.dropWhile other := by
 induction items with
 | nil => exact ⟨rfl, rfl⟩
 | cons head tail ih =>
  obtain ⟨front, back⟩ := ih fun item member => same item (mem_cons_of_mem head member)
  rw [takeWhile_cons, takeWhile_cons, dropWhile_cons, dropWhile_cons,
   same head mem_cons_self, front, back]
  exact ⟨rfl, rfl⟩

variable {item : α}

section

variable (test : α → Bool)

theorem pairwise_insert (sorted : items.Pairwise before)
 (passed_on : ∀ left right, before left right → test left = false → test right = false)
 (earlier : ∀ other ∈ items, test other = true → before other item)
 (later : ∀ other ∈ items, test other = false → before item other) :
 (items.takeWhile test ++ item :: items.dropWhile test).Pairwise before := by
 have whole : items.takeWhile test ++ items.dropWhile test = items :=
  takeWhile_append_dropWhile
 have split := sorted
 rw [← whole, pairwise_append] at split
 obtain ⟨front, back, across⟩ := split
 rw [pairwise_append, pairwise_cons]
 refine ⟨front, ⟨?_, back⟩, ?_⟩
 · intro other member
   exact later other ((dropWhile_sublist test).subset member)
    (eq_false_of_mem_dropWhile test sorted passed_on other member)
 · intro left inFront right member
   rcases mem_cons.mp member with same | inBack
   · subst right
     exact earlier left ((takeWhile_sublist test).subset inFront)
      (mem_takeWhile_imp inFront)
   · exact across left inFront right inBack

theorem takeWhile_eq_filter (sorted : items.Pairwise before)
 (passed_on : ∀ left right, before left right → test left = false → test right = false) :
 items.takeWhile test = items.filter test := by
 have front : (items.takeWhile test).filter test = items.takeWhile test :=
  filter_eq_self.mpr fun _ member => mem_takeWhile_imp member
 have back : (items.dropWhile test).filter test = [] :=
  filter_eq_nil_iff.mpr fun item member => by
   rw [eq_false_of_mem_dropWhile test sorted passed_on item member]
   exact Bool.false_ne_true
 calc
  items.takeWhile test = (items.takeWhile test ++ items.dropWhile test).filter test := by
   grind
  _ = items.filter test := by rw [takeWhile_append_dropWhile]

theorem dropWhile_eq_filter (sorted : items.Pairwise before)
 (passed_on : ∀ left right, before left right → test left = false → test right = false) :
 items.dropWhile test = items.filter fun item => !test item := by
 have front : (items.takeWhile test).filter (fun item => !test item) = [] :=
  filter_eq_nil_iff.mpr fun item member => by
   rw [mem_takeWhile_imp member]
   exact Bool.false_ne_true
 have back : (items.dropWhile test).filter (fun item => !test item) = items.dropWhile test :=
  filter_eq_self.mpr fun item member => by
   rw [eq_false_of_mem_dropWhile test sorted passed_on item member]
   rfl
 calc
  items.dropWhile test =
   (items.takeWhile test ++ items.dropWhile test).filter fun item => !test item := by
   grind
  _ = items.filter fun item => !test item := by rw [takeWhile_append_dropWhile]

theorem sublist_insert {fewer : List α} (sublist : fewer.Sublist items)
 (sorted : items.Pairwise before)
 (passed_on : ∀ left right, before left right → test left = false → test right = false) (item : α) :
 (fewer.takeWhile test ++ item :: fewer.dropWhile test).Sublist
  (items.takeWhile test ++ item :: items.dropWhile test) := by
 rw [takeWhile_eq_filter test sorted passed_on, dropWhile_eq_filter test sorted passed_on,
  takeWhile_eq_filter test (sorted.sublist sublist) passed_on,
  dropWhile_eq_filter test (sorted.sublist sublist) passed_on]
 exact (sublist.filter _).append ((sublist.filter _).cons_cons item)

end

/-! ### Two lists in step -/

section Related

variable {β : Type*} {related : α → β → Prop} {left : List α} {right : List β} {test : α → Bool}
 {other : β → Bool}

variable (step : List.Forall₂ related left right)
include step

theorem exists_of_mem_left (member : item ∈ left) : ∃ image ∈ right, related item image := by
 induction step with
 | nil => cases member
 | @cons first firstImage left right isFirst rest ih =>
  rcases mem_cons.mp member with same | later
  · simp_all
  · simp_all

theorem forall₂_imp_mem {alike : α → β → Prop}
 (kept : ∀ item ∈ left, ∀ image ∈ right, related item image → alike item image) :
 List.Forall₂ alike left right := by
 induction step with
 | nil => exact .nil
 | cons first rest ih =>
  simp_all

theorem forall₂_eraseP (same : ∀ item image, related item image → test item = other image) :
 List.Forall₂ related (left.eraseP test) (right.eraseP other) := by
 induction step with
 | nil => exact .nil
 | @cons item image left right first rest ih =>
  rw [eraseP_cons, eraseP_cons, same item image first]
  cases other image with
  | true => exact rest
  | false => exact .cons first ih

theorem forall₂_insert (same : ∀ item image, related item image → test item = other image)
 {image : β} (new : related item image) :
 List.Forall₂ related (left.takeWhile test ++ item :: left.dropWhile test)
  (right.takeWhile other ++ image :: right.dropWhile other) := by
 induction step with
 | nil => exact .cons new .nil
 | @cons first firstImage left right isFirst rest ih =>
  rw [takeWhile_cons, dropWhile_cons, takeWhile_cons, dropWhile_cons,
   same first firstImage isFirst]
  cases other firstImage with
  | true => exact .cons isFirst ih
  | false => exact .cons new (.cons isFirst rest)

end Related

theorem foldl_sub_eq (size : α → ℕ) (items : List α) (start : ℕ) :
 items.foldl (fun total item => total - size item) start =
  start - (items.map size).sum := by
 induction items generalizing start with
 | nil => rfl
 | cons head tail ih =>
  grind

end MyNotes.Library.SortedCut
