/-
PTEs of the copy-on-write lab.

A PTE is found by its process and virtual page, so the list of PTEs has every such key
once.  `places` forgets what copy on write does to the flags.
-/

import Mathlib.Data.List.Count
import Mathlib.Data.List.Nodup
import MyNotes.Xv6.CowFork

namespace MyNotes.Xv6.Kernel

open Function List

def mapped (self : Kernel) (page : Page) : ℕ :=
 self.ptes.countP fun mapping => mapping.pte.pa = page

def Keyed (self : Kernel) : Prop :=
 (self.ptes.map fun mapping => (mapping.pid, mapping.va)).Nodup

variable {self : Kernel} {pid : Pid} {va : ℕ} {pte : Pte}

theorem mem_of_walk (found : self.walk pid va = some pte) : ⟨pid, va, pte⟩ ∈ self.ptes := by
 obtain ⟨mapping, search, same⟩ := Option.map_eq_some_iff.mp found
 have key := find?_some search
 obtain ⟨samePid, sameVa⟩ := of_decide_eq_true key
 subst samePid sameVa same
 exact mem_of_find?_eq_some search

variable {mapping : Mapping}

theorem pte_unique (keys : self.Keyed) {other : Mapping} (member : mapping ∈ self.ptes)
 (otherMember : other ∈ self.ptes) (samePid : mapping.pid = other.pid)
 (sameVa : mapping.va = other.va) : mapping = other :=
 inj_on_of_nodup_map keys member otherMember (Prod.ext samePid sameVa)

theorem walk_of_mem (keys : self.Keyed)
 (member : ⟨pid, va, pte⟩ ∈ self.ptes) : self.walk pid va = some pte := by
 cases search : self.walk pid va with
 | none =>
  have absent := find?_eq_none.mp (Option.map_eq_none_iff.mp search) _ member
  simp_all
 | some other =>
  have same := pte_unique keys (mem_of_walk search) member rfl rfl
  cases same
  rfl

theorem walk_none (absent : self.walk pid va = none) (member : mapping ∈ self.ptes) :
 ¬ (mapping.pid = pid ∧ mapping.va = va) := by
 intro both
 exact find?_eq_none.mp (Option.map_eq_none_iff.mp absent) mapping member
  (decide_eq_true both)

theorem mapped_pos (member : mapping ∈ self.ptes) :
 0 < self.mapped mapping.pte.pa :=
 countP_pos_iff.mpr ⟨mapping, member, decide_eq_true rfl⟩

theorem eq_of_mapped_le_one {other : Mapping} (member : mapping ∈ self.ptes)
 (otherMember : other ∈ self.ptes) (same : other.pte.pa = mapping.pte.pa)
 (once : self.mapped mapping.pte.pa ≤ 1) :
 other = mapping := by
 unfold mapped at once
 rw [countP_eq_length_filter] at once
 have first : mapping ∈ self.ptes.filter fun stored => stored.pte.pa = mapping.pte.pa :=
  mem_filter.mpr ⟨member, decide_eq_true rfl⟩
 have second : other ∈ self.ptes.filter fun stored => stored.pte.pa = mapping.pte.pa :=
  mem_filter.mpr ⟨otherMember, decide_eq_true same⟩
 obtain ⟨only, alone⟩ := length_eq_one_iff.mp
  (Nat.le_antisymm once (length_pos_of_mem first))
 grind

theorem mapped_addPte : (self.addPte pid va pte).mapped =
 update self.mapped pte.pa (self.mapped pte.pa + 1) := by
 funext page
 unfold mapped addPte
 rw [countP_cons]
 by_cases same : page = pte.pa
 · simp_all
 · rw [update_of_ne same, if_neg (by simpa using Ne.symm same)]
   rfl

theorem clearPte_eq_erase (keys : self.Keyed)
 (found : self.walk pid va = some pte) :
 (self.clearPte pid va).ptes = self.ptes.erase ⟨pid, va, pte⟩ := by
 rw [(List.Nodup.of_map (fun mapping : Mapping => (mapping.pid, mapping.va)) keys).erase_eq_filter]
 apply filter_congr
 intro mapping member
 by_cases same : mapping.pid = pid ∧ mapping.va = va
 · have equal := pte_unique keys member (mem_of_walk found) same.1 same.2
   simp [equal]
 · have different : mapping ≠ ⟨pid, va, pte⟩ := fun equal => same (equal ▸ ⟨rfl, rfl⟩)
   simp [same, different]

theorem mapped_clearPte (keys : self.Keyed)
 (found : self.walk pid va = some pte) : (self.clearPte pid va).mapped =
  update self.mapped pte.pa (self.mapped pte.pa - 1) := by
 funext page
 unfold mapped
 rw [clearPte_eq_erase keys found, countP_erase]
 by_cases same : page = pte.pa
 · subst same
   rw [update_self, if_pos ⟨mem_of_walk found, decide_eq_true rfl⟩]
 · rw [update_of_ne same, if_neg]
   · rfl
   · grind

theorem keys_clearPte (keys : self.Keyed) : (self.clearPte pid va).Keyed :=
 keys.sublist (filter_sublist.map _)

theorem keys_addPte (keys : self.Keyed) (absent : self.walk pid va = none) :
 (self.addPte pid va pte).Keyed := by
 unfold Keyed addPte
 rw [map_cons, nodup_cons]
 refine ⟨?_, keys⟩
 intro member
 obtain ⟨mapping, stored, same⟩ := mem_map.mp member
 exact walk_none absent stored (Prod.mk.inj same)

theorem mem_setPte :
 mapping ∈ (self.setPte pid va pte).ptes ↔
  (mapping ∈ self.ptes ∧ ¬ (mapping.pid = pid ∧ mapping.va = va)) ∨
   (mapping = ⟨pid, va, pte⟩ ∧ (self.walk pid va).isSome) := by
 unfold setPte
 rw [mem_map]
 constructor
 · intro found
   obtain ⟨old, member, same⟩ := found
   by_cases hit : old.pid = pid ∧ old.va = va
   · rw [if_pos hit] at same
     refine Or.inr ⟨?_, ?_⟩
     · rw [← same, ← hit.1, ← hit.2]
     · cases absent : self.walk pid va with
       | none => exact absurd hit (walk_none absent member)
       | some _ => rfl
   · simp_all
 · intro cases
   rcases cases with ⟨member, miss⟩ | ⟨same, present⟩
   · exact ⟨mapping, member, if_neg miss⟩
   · obtain ⟨old, found⟩ := Option.isSome_iff_exists.mp present
     refine ⟨_, mem_of_walk found, ?_⟩
     rw [if_pos ⟨rfl, rfl⟩, same]

theorem keys_setPte (keys : self.Keyed) : (self.setPte pid va pte).Keyed := by
 unfold Keyed setPte
 rw [map_map]
 have same : ((fun mapping : Mapping => (mapping.pid, mapping.va)) ∘ fun mapping : Mapping =>
  if mapping.pid = pid ∧ mapping.va = va then { mapping with pte := pte } else mapping) =
  fun mapping => (mapping.pid, mapping.va) := by
  funext mapping
  dsimp only [comp_apply]
  split <;> rfl
 rw [same]
 exact keys

theorem mapped_setPte (keys : self.Keyed) {old : Pte} (found : self.walk pid va = some old)
 (samePage : pte.pa = old.pa) : (self.setPte pid va pte).mapped = self.mapped := by
 funext page
 unfold mapped setPte
 rw [countP_map]
 apply countP_congr
 intro mapping member
 dsimp only [comp_apply]
 by_cases hit : mapping.pid = pid ∧ mapping.va = va
 · rw [if_pos hit, pte_unique keys member (mem_of_walk found) hit.1 hit.2]
   rw [samePage]
 · rw [if_neg hit]

theorem walk_clearPte : (self.clearPte pid va).walk pid va = none := by
 unfold walk clearPte
 rw [Option.map_eq_none_iff, find?_eq_none]
 intro mapping member hit
 have kept := of_decide_eq_true (mem_filter.mp member).2
 exact kept (of_decide_eq_true hit)

/-! ### Shared pages -/

@[simp] theorem shared_pa (pte : Pte) : (shared pte).pa = pte.pa := by
 unfold shared
 split <;> rfl

theorem shared_unwritable (pte : Pte) : (shared pte).writable = false := by
 unfold shared
 split
 · rfl
 · simp_all

def plain (pte : Pte) : Pte := { pte with writable := pte.writable || pte.cow, cow := false }

/-- What is mapped where, without the marks of copy on write. -/
def places (self : Kernel) : List Mapping :=
 self.ptes.map fun mapping => { mapping with pte := plain mapping.pte }

theorem plain_shared (pte : Pte) : plain (shared pte) = plain pte := by
 unfold shared
 split
 · rename_i writable
   unfold plain
   rw [writable]
   rfl
 · rfl

theorem mapped_of_places {other : Kernel} (same : self.places = other.places) :
 self.mapped = other.mapped := by
 have counted (state : Kernel) (page : Page) :
  state.places.countP (fun mapping => mapping.pte.pa = page) = state.mapped page := by
  unfold places
  rw [countP_map]
  rfl
 grind

theorem places_markShared (keys : self.Keyed) (found : self.walk pid va = some pte) :
 (self.markShared pid va pte).places = self.places := by
 unfold markShared
 split
 · unfold places setPte
   rw [map_map]
   apply map_congr_left
   intro mapping member
   dsimp only [comp_apply]
   by_cases hit : mapping.pid = pid ∧ mapping.va = va
   · rw [if_pos hit, pte_unique keys member (mem_of_walk found) hit.1 hit.2]
     rw [plain_shared]
   · rw [if_neg hit]
 · rfl

theorem keys_markShared (keys : self.Keyed) : (self.markShared pid va pte).Keyed := by
 unfold markShared
 split
 · exact keys_setPte keys
 · exact keys

theorem places_clearPte : (self.clearPte pid va).places =
 self.places.filter fun mapping => ¬ (mapping.pid = pid ∧ mapping.va = va) := by
 unfold places clearPte
 rw [filter_map]
 rfl

end MyNotes.Xv6.Kernel
