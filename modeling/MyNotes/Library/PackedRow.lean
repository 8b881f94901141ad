/-
Partial rows in packed form.

A partial row gives values to some of the columns `0, …, width - 1`.  Its packed
form is a flag for every column and the list of the values that are there, in the
order of their columns.
-/

import Mathlib.Data.List.Basic

namespace MyNotes.Library.PackedRow

open List

variable {α : Type*}

def flags (width : ℕ) (row : ℕ → Option α) : List Bool :=
 (List.range width).map fun column => (row column).isSome

def packed (width : ℕ) (row : ℕ → Option α) : List α := (List.range width).filterMap row

def entries (width : ℕ) (row : ℕ → Option α) : List (ℕ × α) :=
 (List.range width).filterMap fun column => (row column).map fun value => (column, value)

/-- A full row where the partial one takes precedence. -/
def override (row : ℕ → Option α) (values : List α) : List α :=
 values.mapIdx fun column value => (row column).getD value

theorem flags_succ (width : ℕ) (row : ℕ → Option α) :
 flags (width + 1) row = flags width row ++ [(row width).isSome] := by
 rw [flags, range_succ, map_append]
 rfl

theorem packed_succ (width : ℕ) (row : ℕ → Option α) :
 packed (width + 1) row = packed width row ++ (row width).toList := by
 rw [packed, range_succ, filterMap_append, packed]
 congr 1

theorem flags_length (width : ℕ) (row : ℕ → Option α) : (flags width row).length = width := by
 rw [flags, length_map, length_range]

variable {width : ℕ}

theorem flags_getD {column : ℕ} (row : ℕ → Option α) (bound : column < width) :
 (flags width row).getD column false = (row column).isSome := by
 rw [getD_eq_getElem?_getD, flags, getElem?_map, getElem?_range bound]
 rfl

theorem packed_rank {column : ℕ} {row : ℕ → Option α} {value : α} (bound : column < width)
 (found : row column = some value) :
 (packed width row)[(packed column row).length]? = some value := by
 induction width with
 | zero => omega
 | succ width ih =>
  rw [packed_succ]
  by_cases last : column = width
  · simp_all
  · have earlier := ih (by omega)
    have inside := (List.getElem?_eq_some_iff.mp earlier).1
    grind

theorem columns_zip (width : ℕ) (row : ℕ → Option α) :
 ((range (flags width row).length).filter fun column =>
  (flags width row).getD column false).zip (packed width row) = entries width row := by
 rw [flags_length]
 have columns : (range width).filter (fun column => (flags width row).getD column false) =
  (range width).filter fun column => (row column).isSome := by
  apply filter_congr
  intro column member
  exact flags_getD row (mem_range.mp member)
 rw [columns, packed, entries]
 induction range width with
 | nil => rfl
 | cons column rest ih =>
  cases found : row column with
  | none =>
   rw [filter_cons_of_neg (by rw [found]; exact Bool.false_ne_true),
    filterMap_cons_none found, filterMap_cons_none (by rw [found]; rfl)]
   exact ih
  | some value =>
   rw [filter_cons_of_pos (by rw [found]; rfl), filterMap_cons_some found,
    filterMap_cons_some (by rw [found]; rfl), zip_cons_cons, ih]

theorem entries_succ (width : ℕ) (row : ℕ → Option α) :
 entries (width + 1) row =
  entries width row ++ ((row width).map fun value => (width, value)).toList :=
 packed_succ width fun column => (row column).map fun value => (column, value)

theorem override_getElem? (row : ℕ → Option α) (values : List α) (column : ℕ) :
 (override row values)[column]? = values[column]?.map fun value => (row column).getD value := by
 rw [override, getElem?_mapIdx]

theorem override_length (row : ℕ → Option α) (values : List α) :
 (override row values).length = values.length := by
 rw [override, length_mapIdx]

theorem override_map (row : ℕ → Option α) (value : ℕ → α) (width : ℕ) :
 override row ((range width).map value) =
  (range width).map fun column => (row column).getD (value column) := by
 apply ext_getElem?
 intro column
 rw [override_getElem?, getElem?_map, getElem?_map]
 by_cases inside : column < width
 · rw [getElem?_range inside]
   rfl
 · rw [getElem?_eq_none (by simp_all)]
   rfl

theorem foldl_set_length (stored : List (ℕ × α)) (values : List α) :
 (stored.foldl (fun values entry => values.set entry.1 entry.2) values).length =
  values.length := by
 induction stored generalizing values with
 | nil => rfl
 | cons entry rest ih => rw [foldl_cons, ih, length_set]

theorem foldl_set_entries (row : ℕ → Option α) (values : List α) (width column : ℕ) :
 ((entries width row).foldl (fun values entry => values.set entry.1 entry.2) values)[column]? =
  values[column]?.map fun value =>
   if column < width then (row column).getD value else value := by
 induction width with
 | zero =>
  change values[column]? = _
  cases values[column]? with
  | none => rfl
  | some value => rfl
 | succ width ih =>
  rw [entries_succ, foldl_append]
  by_cases last : column = width
  · subst last
    cases found : row column with
    | none =>
     simp_all
    | some new =>
     dsimp only [Option.map_some, Option.toList_some, foldl_cons, foldl_nil]
     rw [getElem?_set, if_pos rfl, foldl_set_length]
     by_cases inside : column < values.length
     · simp_all
     · simp_all
  · have bound : column < width + 1 ↔ column < width := by omega
    have unchanged : (((row width).map fun value => (width, value)).toList.foldl
     (fun values entry => values.set entry.1 entry.2)
     ((entries width row).foldl (fun values entry => values.set entry.1 entry.2)
      values))[column]? =
     ((entries width row).foldl (fun values entry => values.set entry.1 entry.2)
      values)[column]? := by
     cases row width with
     | none => rfl
     | some new => grind
    rw [unchanged, ih]
    simp only [bound]

theorem foldl_set_eq_override (row : ℕ → Option α) {values : List α} (wide : values.length = width)
 :
 (entries width row).foldl (fun values entry => values.set entry.1 entry.2) values =
  override row values := by
 apply ext_getElem?
 intro column
 rw [foldl_set_entries, override_getElem?]
 by_cases inside : column < values.length
 · simp only [if_pos (wide ▸ inside)]
 · simp_all

end MyNotes.Library.PackedRow
