/-
The live variables of a program, each with the handle that it holds.

`tally` counts the variables whose handle passes a test.  It changes by the handle of the
one variable that is constructed, assigned or destroyed.
-/

import Mathlib.Data.List.AList
import Mathlib.Algebra.Group.Nat.Defs

namespace MyNotes.Library.LiveVariables

open List AList

variable {Handle : Type*}

abbrev Variables (Handle : Type*) := AList fun _ : ℕ => Handle

def tally (vars : Variables Handle) (test : Handle → Prop) [DecidablePred test] : ℕ :=
 vars.entries.countP fun entry => test entry.2

variable {vars : Variables Handle} {v w : ℕ} {handle this : Handle}

theorem lookup_of_insert (found : (vars.insert v handle).lookup w = some this) :
 this = handle ∨ vars.lookup w = some this := by
 by_cases same : w = v
 · rw [same, lookup_insert] at found
   exact .inl (Option.some.inj found).symm
 · simp_all

theorem lookup_of_erase (found : (vars.erase v).lookup w = some this) :
 vars.lookup w = some this := by
 by_cases same : w = v
 · rw [same, lookup_erase] at found
   cases found
 · rwa [lookup_erase_ne same] at found

variable (test : Handle → Prop) [DecidablePred test]

theorem tally_erase (found : vars.lookup v = some handle) :
 tally (vars.erase v) test + (if test handle then 1 else 0) = tally vars test := by
 have member : v ∈ vars.entries.keys := lookup_isSome.mp (by rw [found]; rfl)
 obtain ⟨other, first, last, notFirst, whole, erased⟩ := exists_of_kerase member
 have same : other = handle := by
  have present : (⟨v, other⟩ : Sigma fun _ : ℕ => Handle) ∈ vars.entries := by
   rw [whole]
   exact mem_append_right _ mem_cons_self
  exact Option.some.inj ((mem_lookup_iff.mpr present).symm.trans found)
 unfold tally
 rw [show (vars.erase v).entries = vars.entries.kerase v from rfl, erased, whole,
  countP_append, countP_append, countP_cons, same, Nat.add_assoc]
 simp only [decide_eq_true_eq]

theorem tally_insert_new (absent : v ∉ vars) (handle : Handle) :
 tally (vars.insert v handle) test = tally vars test + (if test handle then 1 else 0) := by
 unfold tally
 rw [entries_insert_of_notMem absent, countP_cons]
 simp only [decide_eq_true_eq]

theorem tally_insert {old : Handle} (found : vars.lookup v = some old) (handle : Handle) :
 tally (vars.insert v handle) test + (if test old then 1 else 0) =
  tally vars test + (if test handle then 1 else 0) := by
 have erased := tally_erase test found
 have inserted : tally (vars.insert v handle) test =
  tally (vars.erase v) test + (if test handle then 1 else 0) := by
  unfold tally
  rw [entries_insert, countP_cons]
  simp only [decide_eq_true_eq]
  rfl
 omega

variable {test}

theorem tally_pos_iff :
 0 < tally vars test ↔ ∃ v handle, vars.lookup v = some handle ∧ test handle := by
 unfold tally
 rw [countP_pos_iff]
 simp only [decide_eq_true_eq]
 constructor
 · intro ⟨⟨v, handle⟩, member, passes⟩
   exact ⟨v, handle, mem_lookup_iff.mpr member, passes⟩
 · intro ⟨v, handle, found, passes⟩
   exact ⟨⟨v, handle⟩, mem_lookup_iff.mp found, passes⟩

theorem tally_pos (found : vars.lookup v = some handle) (passes : test handle) :
 0 < tally vars test :=
 tally_pos_iff.mpr ⟨v, handle, found, passes⟩

theorem tally_eq_zero_iff :
 tally vars test = 0 ↔ ∀ v handle, vars.lookup v = some handle → ¬ test handle := by
 rw [← Nat.le_zero, ← Nat.not_lt, tally_pos_iff]
 simp only [not_exists, not_and]

theorem tally_congr {other : Handle → Prop} [DecidablePred other]
 (same : ∀ v handle, vars.lookup v = some handle → (test handle ↔ other handle)) :
 tally vars test = tally vars other := by
 refine countP_congr fun entry member => ?_
 rw [decide_eq_true_eq, decide_eq_true_eq]
 exact same entry.1 entry.2 (mem_lookup_iff.mpr member)

theorem insert_erase (vars : Variables Handle) (v : ℕ) (handle : Handle) :
 (vars.erase v).insert v handle = vars.insert v handle := by
 refine ext ?_
 rw [entries_insert, entries_insert]
 refine congrArg _ (kerase_of_notMem_keys ?_)
 exact notMem_keys_kerase v vars.nodupKeys

end MyNotes.Library.LiveVariables
