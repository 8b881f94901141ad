/-
The calls of the skip list, one after the other.

The levels count: a value is on the bottom level as often as it was added and not erased since.
-/

import MyNotes.Algorithms.SkiplistAdd
import MyNotes.Algorithms.SkiplistErase

namespace MyNotes.Algorithms.Skiplist

open Library Library.LinkedChain List

variable {nodes : ℕ → Node} {level : Level} {levels below : List Level}

/-! ### Reachable nodes -/

inductive Reachable (list : Skiplist) : ℕ → Prop
 | head : Reachable list list.head
 | right {p q : ℕ} : Reachable list p → (list.nodes p).right = some q → Reachable list q
 | down {p q : ℕ} : Reachable list p → (list.nodes p).down = some q → Reachable list q

variable {p : ℕ}

theorem Rests.down_mem {q : ℕ} (rests : Rests nodes level below.head?) (member : p ∈ level.ids)
 (follows : (nodes p).down = some q) : q ∈ idsOf below := by
 cases below with
 | nil =>
  rw [rests p member] at follows
  cases follows
 | cons lower below =>
  obtain ⟨sentinelDown, images, step, sublist⟩ := rests
  refine mem_idsOf_first ?_
  rcases mem_cons.mp member with isSentinel | inside
  · rw [isSentinel, sentinelDown] at follows
    cases follows
    exact sentinel_mem lower
  · obtain ⟨image, inImages, isDown, -⟩ := SortedCut.exists_of_mem_left step inside
    rw [isDown] at follows
    cases follows
    exact Level.mem_ids (sublist.subset inImages)

theorem Tower.closed (tower : Tower nodes levels) {q : ℕ} (member : p ∈ idsOf levels)
 (follows : (nodes p).right = some q ∨ (nodes p).down = some q) : q ∈ idsOf levels := by
 induction levels with
 | nil => cases member
 | cons level below ih =>
  obtain ⟨chain, -, rests, tower⟩ := tower
  rw [idsOf_cons, mem_append] at member
  rcases member with inLevel | inBelow
  · rcases follows with isRight | isDown
    · exact mem_idsOf_first (Level.mem_ids (chain.next_mem inLevel isRight))
    · exact mem_idsOf_below (rests.down_mem inLevel isDown)
  · exact mem_idsOf_below (ih tower inBelow)

theorem Layered.reachable_mem {list : Skiplist} (layered : Layered list levels)
 (reachable : Reachable list p) : p ∈ idsOf levels := by
 induction reachable with
 | head =>
  have head := layered.head
  cases levels with
  | nil => cases head
  | cons level below => exact mem_idsOf_first (Option.some.inj head ▸ sentinel_mem level)
 | right _ isRight ih => exact layered.tower.closed ih (.inl isRight)
 | down _ isDown ih => exact layered.tower.closed ih (.inr isDown)

/-! ### Calls -/

inductive Call where
 | add (num : ℤ) (flips : ℕ → Bool)
 | erase (num : ℤ)
 | search (target : ℤ)

/-- A skip list, and how often each value was added, and erased with the answer true. -/
structure Session where
 list : Skiplist
 added : ℤ → ℕ
 erased : ℤ → ℕ

def tally (counts : ℤ → ℕ) (num : ℤ) : ℤ → ℕ := Function.update counts num (counts num + 1)

namespace Session

def start : Session := ⟨new, fun _ => 0, fun _ => 0⟩

def call (session : Session) : Call → Option Session
 | .add num flips => (session.list.add num flips).map fun list =>
  { session with list, added := tally session.added num }
 | .erase num => (session.list.erase num).map fun (list, seen) =>
  if seen then { session with list, erased := tally session.erased num }
  else { session with list }
 | .search target => (session.list.search target).map fun _ => session

def run : Session → List Call → Option Session
 | session, [] => some session
 | session, call :: calls => (session.call call).bind fun next => next.run calls

/-- The bottom level has what was added and not erased. -/
structure Sound (session : Session) (levels : List Level) : Prop where
 layered : Layered session.list levels
 count : ∀ num, (values session.list.nodes levels).count num + session.erased num =
  session.added num

theorem start_sound : start.Sound [⟨0, []⟩] := ⟨new_layered, fun _ => rfl⟩

variable {session : Session}

theorem Sound.mem_iff (sound : session.Sound levels) (num : ℤ) :
 num ∈ values session.list.nodes levels ↔ session.erased num < session.added num := by
 rw [← count_pos_iff, ← sound.count num]
 exact (Nat.lt_add_left_iff_pos).symm

theorem tally_apply (counts : ℤ → ℕ) (num other : ℤ) :
 tally counts num other = counts other + if num = other then 1 else 0 := by
 by_cases same : num = other
 · rw [same, if_pos rfl]
   exact Function.update_self _ _ _
 · rw [if_neg same]
   exact Function.update_of_ne (Ne.symm same) _ _

theorem call_sound (sound : session.Sound levels) (call : Call) :
 ∃ next others, session.call call = some next ∧ next.Sound others := by
 cases call with
 | add num flips =>
  obtain ⟨list, raised, runs, layered, perm⟩ := sound.layered.add_spec num flips
  refine ⟨_, raised, by rw [Session.call, runs]; rfl, layered, fun other => ?_⟩
  change count other (values list.nodes raised) + session.erased other =
   tally session.added num other
  rw [perm.count_eq, count_cons, tally_apply, ← sound.count other]
  by_cases same : num = other
  · grind
  · simp_all
 | erase num =>
  obtain ⟨list, thinner, runs, layered, isErased⟩ := sound.layered.erase_spec num
  by_cases inside : num ∈ values session.list.nodes levels
  · rw [decide_eq_true inside] at runs
    refine ⟨_, thinner, by rw [Session.call, runs]; rfl, layered, fun other => ?_⟩
    change count other (values list.nodes thinner) + tally session.erased num other =
     session.added other
    rw [isErased, count_erase, tally_apply, ← sound.count other]
    by_cases same : num = other
    · have positive : 0 < (values session.list.nodes levels).count num :=
       count_pos_iff.mpr inside
      grind
    · simp_all
  · rw [decide_eq_false inside] at runs
    refine ⟨_, thinner, by rw [Session.call, runs]; rfl, layered, fun other => ?_⟩
    change count other (values list.nodes thinner) + session.erased other =
     session.added other
    rw [isErased, erase_of_not_mem inside]
    exact sound.count other
 | search target =>
  exact ⟨session, levels, by rw [Session.call, sound.layered.search_spec]; rfl, sound⟩

theorem run_sound (sound : session.Sound levels) (calls : List Call) :
 ∃ last others, session.run calls = some last ∧ last.Sound others := by
 induction calls generalizing session levels with
 | nil => exact ⟨session, levels, rfl, sound⟩
 | cons call calls ih =>
  obtain ⟨next, others, runs, sound⟩ := call_sound sound call
  obtain ⟨last, others, rest, sound⟩ := ih sound
  exact ⟨last, others, by rw [run, runs]; exact rest, sound⟩

/-- Every sequence of calls has a result, with sorted levels above each other and no removed node
in reach, and the answers count. -/
theorem run_counts (calls : List Call) :
 ∃ session levels, start.run calls = some session ∧ Layered session.list levels ∧
  (∀ i ∈ session.list.removed, ¬ Reachable session.list i) ∧
  ∀ num, (values session.list.nodes levels).count num + session.erased num =
   session.added num ∧
   session.list.search num = some (decide (session.erased num < session.added num)) ∧
   ∃ after thinner, session.list.erase num =
    some (after, decide (session.erased num < session.added num)) ∧
    Layered after thinner ∧
    values after.nodes thinner = (values session.list.nodes levels).erase num := by
 obtain ⟨session, levels, runs, sound⟩ := run_sound start_sound calls
 refine ⟨session, levels, runs, sound.layered, fun i removed reachable => ?_, fun num =>
  ⟨sound.count num, ?_, ?_⟩⟩
 · exact (sound.layered.removed i removed).2 (sound.layered.reachable_mem reachable)
 · rw [sound.layered.search_spec, decide_eq_decide.mpr (sound.mem_iff num)]
 · obtain ⟨after, thinner, erases, layered, isErased⟩ := sound.layered.erase_spec num
   rw [decide_eq_decide.mpr (sound.mem_iff num)] at erases
   exact ⟨after, thinner, erases, layered, isErased⟩

end Session

end MyNotes.Algorithms.Skiplist
