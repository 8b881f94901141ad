/-
Views of stored texts.

A store keeps texts under addresses.  A view has the address of a text, a place in it and a size.
It is read from the store, so that a view whose text is gone reads nothing.
-/

import Mathlib.Algebra.GroupWithZero.Nat
import Mathlib.Data.List.Forall2

namespace MyNotes.Library.TextView

open List

structure Stored (α : Type) where
 address : ℕ
 text : List α

structure View where
 address : ℕ
 start : ℕ
 size : ℕ

variable {α : Type} {store : List (Stored α)} {views : List View} {stored : Stored α} {view : View}

def Stored.whole (stored : Stored α) : View := ⟨stored.address, 0, stored.text.length⟩

def View.removePrefix (view : View) (count : ℕ) : View :=
 ⟨view.address, view.start + count, view.size - count⟩

/-- What the view reads; an empty view reads no text. -/
def View.read (store : List (Stored α)) (view : View) : Option (List α) :=
 if view.size = 0 then some []
 else (store.find? fun stored => stored.address = view.address).map fun stored =>
  (stored.text.drop view.start).take view.size

def readAll (store : List (Stored α)) (views : List View) : Option (List α) :=
 (views.mapM (View.read store)).map List.flatten

/-- The view is what is left of the text, and some of it is left. -/
structure View.SuffixOf (view : View) (stored : Stored α) : Prop where
 address : view.address = stored.address
 nonempty : 0 < view.size
 ends : view.start + view.size = stored.text.length

theorem View.SuffixOf.whole (nonempty : stored.text ≠ []) : stored.whole.SuffixOf stored :=
 ⟨rfl, length_pos_iff.mpr nonempty, Nat.zero_add _⟩

theorem View.SuffixOf.removePrefix (suffix : view.SuffixOf stored) {count : ℕ}
 (less : count < view.size) : (view.removePrefix count).SuffixOf stored := by
 refine ⟨suffix.address, Nat.sub_pos_of_lt less, ?_⟩
 have ends := suffix.ends
 unfold View.removePrefix
 dsimp only
 omega

theorem View.SuffixOf.length_drop (suffix : view.SuffixOf stored) :
 (stored.text.drop view.start).length = view.size := by
 rw [List.length_drop]
 have ends := suffix.ends
 omega

theorem View.SuffixOf.read (suffix : view.SuffixOf stored) (store : List (Stored α)) :
 view.read (stored :: store) = some (stored.text.drop view.start) := by
 have found : (stored :: store).find? (fun other => other.address = view.address) = some stored :=
  find?_cons_of_pos (decide_eq_true suffix.address.symm)
 rw [View.read, if_neg (Nat.ne_of_gt suffix.nonempty), found, Option.map_some,
  take_of_length_le (Nat.le_of_eq suffix.length_drop)]

theorem View.read_cons_of_ne (differs : stored.address ≠ view.address) :
 view.read (stored :: store) = view.read store := by
 rw [View.read, find?_cons_of_neg (by simpa using differs)]
 rfl

/-! ### Texts and views side by side -/

/-- Each text has its view; only the first has been read in part. -/
structure Aligned (store : List (Stored α)) (views : List View) : Prop where
 suffixes : List.Forall₂ View.SuffixOf views store
 whole : ∀ view ∈ views.tail, view.start = 0
 addresses : (store.map Stored.address).Nodup

theorem Aligned.nil : Aligned ([] : List (Stored α)) [] :=
 ⟨.nil, fun _ member => absurd member not_mem_nil, nodup_nil⟩

theorem Aligned.push (aligned : Aligned store views) (nonempty : stored.text ≠ [])
 (fresh : ∀ other ∈ store, other.address ≠ stored.address) :
 Aligned (store ++ [stored]) (views ++ [stored.whole]) := by
 refine ⟨rel_append aligned.suffixes (.cons (.whole nonempty) .nil),
  fun view member => ?_, ?_⟩
 · cases views with
   | nil => cases member
   | cons first rest =>
    rcases mem_append.mp member with early | last
    · exact aligned.whole view early
    · rw [mem_singleton.mp last]
      rfl
 · rw [map_append, nodup_append]
   refine ⟨aligned.addresses, pairwise_singleton _ _, fun address member last same => ?_⟩
   grind

theorem Aligned.pop (aligned : Aligned (stored :: store) (view :: views)) : Aligned store views :=
 ⟨(forall₂_cons.mp aligned.suffixes).2,
  fun other member => aligned.whole other (mem_of_mem_tail member),
  (nodup_cons.mp aligned.addresses).2⟩

theorem Aligned.removePrefix (aligned : Aligned (stored :: store) (view :: views)) {count : ℕ}
 (less : count < view.size) : Aligned (stored :: store) (view.removePrefix count :: views) :=
 ⟨.cons ((forall₂_cons.mp aligned.suffixes).1.removePrefix less)
  (forall₂_cons.mp aligned.suffixes).2, aligned.whole, aligned.addresses⟩

def texts : List (Stored α) → List View → List (List α)
 | stored :: store, view :: views => stored.text.drop view.start :: texts store views
 | _, _ => []

def remaining (store : List (Stored α)) (views : List View) : List α := (texts store views).flatten

theorem remaining_cons (stored : Stored α) (store : List (Stored α)) (view : View)
 (views : List View) : remaining (stored :: store) (view :: views) =
  stored.text.drop view.start ++ remaining store views := rfl

section

variable (suffixes : List.Forall₂ View.SuffixOf views store)
include suffixes

theorem texts_push :
 texts (store ++ [stored]) (views ++ [stored.whole]) = texts store views ++ [stored.text] := by
 induction suffixes with
 | nil => rfl
 | cons _ _ ih => rw [cons_append, cons_append, texts, texts, ih, cons_append]

theorem remaining_push :
 remaining (store ++ [stored]) (views ++ [stored.whole]) =
  remaining store views ++ stored.text := by
 rw [remaining, texts_push suffixes, flatten_append, flatten_singleton, remaining]

theorem length_remaining : (remaining store views).length = (views.map View.size).sum := by
 induction suffixes with
 | nil => rfl
 | cons suffix _ ih =>
  rw [remaining_cons, length_append, suffix.length_drop, ih, map_cons, sum_cons]

end

theorem Aligned.exists_cons (aligned : Aligned store views)
 (left : 0 < (remaining store views).length) :
 ∃ stored texts view rest, store = stored :: texts ∧ views = view :: rest ∧
  view.SuffixOf stored ∧ Aligned texts rest := by
 cases aligned.suffixes with
 | nil => exact absurd left (Nat.lt_irrefl 0)
 | cons suffix _ => exact ⟨_, _, _, _, rfl, rfl, suffix, aligned.pop⟩

theorem Aligned.length_pos (aligned : Aligned (stored :: store) views) :
 0 < (remaining (stored :: store) views).length := by
 cases aligned.suffixes with
 | cons suffix _ =>
  rw [remaining_cons, length_append, suffix.length_drop]
  exact Nat.lt_add_right _ suffix.nonempty

theorem map_address (suffixes : List.Forall₂ View.SuffixOf views store) :
 views.map View.address = store.map Stored.address := by
 induction suffixes with
 | nil => rfl
 | cons suffix _ ih => rw [map_cons, map_cons, suffix.address, ih]

theorem mapM_read_cons_of_ne
 (differs : ∀ view ∈ views, stored.address ≠ view.address) :
 views.mapM (View.read (stored :: store)) = views.mapM (View.read store) := by
 induction views with
 | nil => rfl
 | cons view views ih =>
  obtain ⟨first, rest⟩ := forall_mem_cons.mp differs
  rw [mapM_cons, mapM_cons, View.read_cons_of_ne first, ih rest]

theorem Aligned.mapM_read (aligned : Aligned store views) :
 views.mapM (View.read store) = some (texts store views) := by
 obtain ⟨suffixes, -, addresses⟩ := aligned
 induction suffixes with
 | nil => rfl
 | @cons view stored views store suffix suffixes ih =>
  obtain ⟨fresh, distinct⟩ := nodup_cons.mp addresses
  have differs : ∀ view ∈ views, stored.address ≠ view.address := by
   intro other member same
   rw [← map_address suffixes, same] at fresh
   exact fresh (mem_map_of_mem member)
  rw [mapM_cons, suffix.read, mapM_read_cons_of_ne differs, ih distinct]
  rfl

theorem Aligned.readAll (aligned : Aligned store views) :
 readAll store views = some (remaining store views) :=
 congrArg (Option.map flatten) aligned.mapM_read

end MyNotes.Library.TextView
