/-
Folding rows group by group, in a table with one accumulator for each key.

A combination can fail.  When the accumulator of a key is at all times a function of the
rows of the key so far, the finished table is that function of every group.
-/

import Mathlib.Data.List.Induction
import Mathlib.Data.Multiset.Dedup

namespace MyNotes.Library.GroupedFold

open List

variable {Key Row Acc : Type*}

/-- Combine a row into the entry of its key, or into a new one behind the others. -/
def put (same : Key → Key → Bool) (combine : Acc → Row → Option Acc) (initial : Acc) (key : Key)
 (row : Row) : List (Key × Acc) → Option (List (Key × Acc))
 | [] => (combine initial row).map fun acc => [(key, acc)]
 | entry :: rest =>
  if same entry.1 key then (combine entry.2 row).map fun acc => (entry.1, acc) :: rest
  else (put same combine initial key row rest).map fun rest => entry :: rest

section Put

variable {same : Key → Key → Bool} {combine : Acc → Row → Option Acc} {initial acc new : Acc}
variable {key own : Key} {row : Row}

variable {table : List (Key × Acc)}

theorem put_absent (absent : ∀ entry ∈ table, same entry.1 key = false)
 (made : combine initial row = some new) :
 put same combine initial key row table = some (table ++ [(key, new)]) := by
 induction table with
 | nil => rw [put, made, Option.map_some, nil_append]
 | cons entry rest ih =>
  rw [put, absent entry mem_cons_self, if_neg Bool.false_ne_true,
   ih fun other member => absent other (mem_cons_of_mem _ member)]
  rfl

theorem put_present {before later : List (Key × Acc)}
 (apart : ∀ entry ∈ before, same entry.1 key = false) (hit : same own key = true)
 (made : combine acc row = some new) :
 put same combine initial key row (before ++ (own, acc) :: later) =
  some (before ++ (own, new) :: later) := by
 induction before with
 | nil => rw [nil_append, put, if_pos hit, made, Option.map_some, nil_append]
 | cons entry rest ih =>
  rw [cons_append, put, apart entry mem_cons_self, if_neg Bool.false_ne_true,
   ih fun other member => apart other (mem_cons_of_mem _ member)]
  rfl

theorem put_ne_nil {result : List (Key × Acc)}
 (made : put same combine initial key row table = some result) : result ≠ [] := by
 intro empty
 subst empty
 cases table with
 | nil => obtain ⟨_, -, impossible⟩ := Option.map_eq_some_iff.mp made; cases impossible
 | cons entry rest =>
  rw [put] at made
  by_cases hit : same entry.1 key = true
  · simp_all
  · simp_all

theorem foldlM_put_ne_nil {keyOf : Row → Key} {rows : List Row} {result : List (Key × Acc)}
 (folded : rows.foldlM (fun table row => put same combine initial (keyOf row) row table) table =
  some result) (nonempty : rows ≠ [] ∨ table ≠ []) : result ≠ [] := by
 induction rows generalizing table with
 | nil =>
  simp_all
 | cons row rest ih =>
  obtain ⟨next, made, later⟩ := Option.bind_eq_some_iff.mp folded
  exact ih later (Or.inr (put_ne_nil made))

end Put

variable [DecidableEq Key]

def group (keyOf : Row → Key) (rows : List Row) (key : Key) : List Row :=
 rows.filter fun row => keyOf row = key

structure Groups (keyOf : Row → Key) (value : List Row → Acc) (rows : List Row)
 (table : List (Key × Acc)) : Prop where
 nodup : (table.map Prod.fst).Nodup
 keys : ∀ key, key ∈ table.map Prod.fst ↔ key ∈ rows.map keyOf
 values : ∀ entry ∈ table, entry.2 = value (group keyOf rows entry.1)

section Groups

variable {keyOf : Row → Key} {value : List Row → Acc} {rows : List Row}
variable {table : List (Key × Acc)}

theorem group_concat_self (row : Row) :
 group keyOf (rows ++ [row]) (keyOf row) = group keyOf rows (keyOf row) ++ [row] := by
 simp [group, filter_append]

variable {row : Row} {key : Key}

theorem group_concat_other (other : keyOf row ≠ key) :
 group keyOf (rows ++ [row]) key = group keyOf rows key := by
 simp [group, filter_append, other]

theorem group_nil_of_not_mem (absent : key ∉ rows.map keyOf) :
 group keyOf rows key = [] := by
 rw [group, filter_eq_nil_iff]
 simp_all

omit [DecidableEq Key] in
theorem mem_keys_concat :
 key ∈ (rows ++ [row]).map keyOf ↔ key ∈ rows.map keyOf ∨ key = keyOf row := by
 simp

theorem Groups.values_other (groups : Groups keyOf value rows table) {entry : Key × Acc}
 (member : entry ∈ table) (other : entry.1 ≠ keyOf row) :
 entry.2 = value (group keyOf (rows ++ [row]) entry.1) := by
 rw [group_concat_other fun same => other same.symm]
 exact groups.values entry member

variable {same : Key → Key → Bool} {combine : Acc → Row → Option Acc}

section

variable (groups : Groups keyOf value rows table)
include groups

theorem Groups.put_of_present
 (tells : ∀ entry ∈ table, same entry.1 (keyOf row) = decide (entry.1 = keyOf row))
 (combined : combine (value (group keyOf rows (keyOf row))) row =
  some (value (group keyOf (rows ++ [row]) (keyOf row))))
 (present : keyOf row ∈ table.map Prod.fst) :
 ∃ next, put same combine (value []) (keyOf row) row table = some next ∧
  Groups keyOf value (rows ++ [row]) next := by
 obtain ⟨⟨own, acc⟩, member, isKey⟩ := mem_map.mp present
 dsimp only at isKey
 subst isKey
 obtain ⟨before, later, split⟩ := append_of_mem member
 have held := groups.values _ member
 dsimp only at held
 have nodup := groups.nodup
 rw [split, map_append, map_cons, nodup_middle, nodup_cons] at nodup
 have apart : ∀ entry ∈ before ++ later, entry.1 ≠ keyOf row := by
  intro entry inside equal
  apply nodup.1
  rw [← map_append]
  exact mem_map.mpr ⟨entry, inside, equal⟩
 have inTable : ∀ entry ∈ before ++ later, entry ∈ table := by
  intro entry inside
  rw [split]
  rcases mem_append.mp inside with front | back
  · exact mem_append_left _ front
  · simp_all
 have sameKeys : (before ++ (keyOf row, value (group keyOf (rows ++ [row]) (keyOf row))) ::
  later).map Prod.fst = table.map Prod.fst := by
  rw [split, map_append, map_append]
  rfl
 refine ⟨_, ?_, ⟨sameKeys ▸ groups.nodup, fun key => ?_, fun entry inside => ?_⟩⟩
 · rw [split]
   refine put_present (fun entry inside => ?_) ?_ (held ▸ combined)
   · grind
   · rw [tells _ member, decide_eq_true_iff]
 · rw [sameKeys, mem_keys_concat, groups.keys]
   refine (or_iff_left_of_imp fun isKey => ?_).symm
   rw [isKey]
   exact (groups.keys _).mp present
 · rcases mem_append.mp inside with front | back
   · exact groups.values_other (inTable _ (mem_append_left _ front))
      (apart _ (mem_append_left _ front))
   · rcases mem_cons.mp back with isNew | later
     · rw [isNew]
     · exact groups.values_other (inTable _ (mem_append_right _ later))
        (apart _ (mem_append_right _ later))

theorem Groups.put_of_absent
 (tells : ∀ entry ∈ table, same entry.1 (keyOf row) = decide (entry.1 = keyOf row))
 (combined : combine (value (group keyOf rows (keyOf row))) row =
  some (value (group keyOf (rows ++ [row]) (keyOf row)))) (new : keyOf row ∉ table.map
  Prod.fst) :
 ∃ next, put same combine (value []) (keyOf row) row table = some next ∧
  Groups keyOf value (rows ++ [row]) next := by
 have other : ∀ entry ∈ table, entry.1 ≠ keyOf row :=
  fun entry inside isKey => new (mem_map.mpr ⟨entry, inside, isKey⟩)
 have absent : keyOf row ∉ rows.map keyOf := fun inRows => new ((groups.keys _).mpr inRows)
 rw [group_nil_of_not_mem absent] at combined
 refine ⟨table ++ [(keyOf row, value (group keyOf (rows ++ [row]) (keyOf row)))],
  put_absent (fun entry inside => ?_) combined, ⟨?_, fun key => ?_, fun entry inside => ?_⟩⟩
 · grind
 · rw [map_append, nodup_append_comm, map_singleton, singleton_append,
    nodup_cons]
   exact ⟨new, groups.nodup⟩
 · rw [mem_keys_concat, map_append, mem_append, map_singleton,
    mem_singleton, groups.keys]
 · rcases mem_append.mp inside with old | isNew
   · exact groups.values_other old (other entry old)
   · rw [mem_singleton.mp isNew]

theorem Groups.put
 (exactly : ∀ key ∈ rows.map keyOf, same key (keyOf row) = decide (key = keyOf row))
 (combined : combine (value (group keyOf rows (keyOf row))) row =
  some (value (group keyOf rows (keyOf row) ++ [row]))) :
 ∃ next, put same combine (value []) (keyOf row) row table = some next ∧
  Groups keyOf value (rows ++ [row]) next := by
 have tells : ∀ entry ∈ table, same entry.1 (keyOf row) = decide (entry.1 = keyOf row) :=
  fun entry member => exactly _ ((groups.keys _).mp (mem_map.mpr ⟨entry, member, rfl⟩))
 rw [← group_concat_self] at combined
 by_cases present : keyOf row ∈ table.map Prod.fst
 · exact groups.put_of_present tells combined present
 · exact groups.put_of_absent tells combined present

end

theorem groups_nil (keyOf : Row → Key) (value : List Row → Acc) : Groups keyOf value [] [] where
 nodup := nodup_nil
 keys _ := Iff.rfl
 values _ impossible := by cases impossible

theorem groups_foldlM
 (exactly : ∀ key ∈ rows.map keyOf, ∀ other ∈ rows.map keyOf,
  same key other = decide (key = other))
 (combined : ∀ earlier row, earlier ++ [row] <+: rows →
  combine (value (group keyOf earlier (keyOf row))) row =
   some (value (group keyOf earlier (keyOf row) ++ [row]))) :
 ∃ table, rows.foldlM (fun table row => put same combine (value []) (keyOf row) row table) [] =
  some table ∧ Groups keyOf value rows table := by
 induction rows using List.reverseRecOn with
 | nil => exact ⟨[], rfl, groups_nil keyOf value⟩
 | append_singleton rows row ih =>
  have inside : ∀ key ∈ rows.map keyOf, key ∈ (rows ++ [row]).map keyOf :=
   fun key member => mem_keys_concat.mpr (.inl member)
  obtain ⟨table, folded, groups⟩ := ih
   (fun key member other otherMember => exactly key (inside key member) other
    (inside other otherMember))
   fun earlier next front => combined earlier next (front.trans (prefix_append _ _))
  obtain ⟨next, put, now⟩ := groups.put
   (fun key member => exactly key (inside key member) _ (mem_keys_concat.mpr (.inr rfl)))
   (combined rows row (prefix_refl _))
  simp_all

theorem Groups.eq_dedup (groups : Groups keyOf value rows table) :
 (table : Multiset (Key × Acc)) = (rows.map keyOf : Multiset Key).dedup.map fun key =>
  (key, value (group keyOf rows key)) := by
 have keys : (table.map Prod.fst : Multiset Key) = (rows.map keyOf : Multiset Key).dedup := by
  rw [Multiset.coe_dedup, Multiset.coe_eq_coe]
  refine (perm_ext_iff_of_nodup groups.nodup (nodup_dedup _)).mpr fun key => ?_
  rw [mem_dedup]
  exact groups.keys key
 rw [← keys, Multiset.map_coe, map_map]
 congr 1
 refine (map_id table).symm.trans (map_congr_left fun entry member => ?_)
 exact Prod.ext rfl (groups.values entry member)

end Groups

end MyNotes.Library.GroupedFold
