/-
Lists in which separators end the fields.

`fields` reads a list from left to right with the field that is open.  Records may leave out the
separator of the last one; words are the fields that are not empty, the open one included.
-/

import Mathlib.Data.List.Basic

namespace MyNotes.Library.Delimited

open List

variable {α : Type*} (sep : α → Bool)

/-- The fields that end with a separator, each with its own, and the field that stays open. -/
def fields (acc : List α) : List α → List (List α × α) × List α
 | [] => ([], acc)
 | item :: items =>
  if sep item then
   let later := fields [] items
   ((acc, item) :: later.1, later.2)
  else fields (acc ++ [item]) items

def closed (items : List α) : List (List α) := (fields sep [] items).1.map Prod.fst

def rest (items : List α) : List α := (fields sep [] items).2

def records (items : List α) : List (List α) :=
 closed sep items ++ if (rest sep items).isEmpty then [] else [rest sep items]

def words (items : List α) : List (List α) :=
 (closed sep items ++ [rest sep items]).filter fun word => !word.isEmpty

def Clean (items : List α) : Prop := ∀ item ∈ items, sep item = false

variable {sep : α → Bool} {acc word items : List α} {item : α}

theorem fields_append (clean : Clean sep word) :
 fields sep acc (word ++ items) = fields sep (acc ++ word) items := by
 induction word generalizing acc with
 | nil => rw [nil_append, append_nil]
 | cons first word ih =>
  have open' : ¬ sep first = true := Bool.eq_false_iff.mp (clean first mem_cons_self)
  rw [cons_append, fields, if_neg open',
   ih fun item member => clean item (mem_cons_of_mem _ member), append_assoc]
  rfl

theorem fields_closed (clean : Clean sep word) (ends : sep item = true) :
 fields sep acc (word ++ item :: items) =
  ((acc ++ word, item) :: (fields sep [] items).1, (fields sep [] items).2) := by
 rw [fields_append clean, fields, if_pos ends]

theorem fields_acc (acc items : List α) : fields sep acc items =
 match fields sep [] items with
 | ([], last) => ([], acc ++ last)
 | ((first, ending) :: more, last) => ((acc ++ first, ending) :: more, last) := by
 have prepend (early late : List α) : fields sep (early ++ late) items =
  match fields sep late items with
  | ([], last) => ([], early ++ last)
  | ((first, ending) :: more, last) => ((early ++ first, ending) :: more, last) := by
  induction items generalizing late with
  | nil => rfl
  | cons item items ih =>
   by_cases ends : sep item = true
   · rw [fields, if_pos ends, fields, if_pos ends]
   · rw [fields, if_neg ends, append_assoc, ih, fields, if_neg ends]
 have whole := prepend acc []
 rwa [append_nil] at whole

section

variable (clean : Clean sep word)
include clean

theorem closed_cons (ends : sep item = true) :
 closed sep (word ++ item :: items) = word :: closed sep items := by
 unfold closed
 rw [fields_closed clean ends]
 rfl

theorem rest_cons (ends : sep item = true) : rest sep (word ++ item :: items) = rest sep items := by
 unfold rest
 rw [fields_closed clean ends]

theorem fields_clean : fields sep [] word = ([], word) := by
 have whole := @fields_append _ sep [] word [] clean
 rwa [append_nil, nil_append] at whole

theorem closed_clean : closed sep word = [] := by
 unfold closed
 rw [fields_clean clean]
 rfl

theorem rest_clean : rest sep word = word := by
 unfold rest
 rw [fields_clean clean]

end

theorem clean_or_ends (sep : α → Bool) (items : List α) : Clean sep items ∨
 ∃ word item more, items = word ++ item :: more ∧ Clean sep word ∧ sep item = true := by
 induction items with
 | nil => exact .inl fun _ member => absurd member not_mem_nil
 | cons first items ih =>
  by_cases ends : sep first = true
  · exact .inr ⟨[], first, items, rfl, fun _ member => absurd member not_mem_nil, ends⟩
  · have plain : ∀ {word}, Clean sep word → Clean sep (first :: word) := by
     intro word clean item member
     rcases mem_cons.mp member with same | later
     · simp_all
     · exact clean item later
    rcases ih with clean | ⟨word, item, more, same, clean, isEnd⟩
    · exact .inl (plain clean)
    · grind

/-! ### Records -/

theorem records_cons (clean : Clean sep word) (ends : sep item = true) :
 records sep (word ++ item :: items) = word :: records sep items := by
 unfold records
 rw [closed_cons clean ends, rest_cons clean ends]
 rfl

theorem records_ne_nil (some : items ≠ []) : records sep items ≠ [] := by
 rcases clean_or_ends sep items with clean | ⟨word, item, more, same, clean, ends⟩
 · unfold records
   rw [closed_clean clean, rest_clean clean]
   cases items with
   | nil => exact absurd rfl some
   | cons => exact cons_ne_nil _ _
 · rw [same, records_cons clean ends]
   exact cons_ne_nil _ _

theorem records_open (clean : Clean sep word) (some : word ≠ []) (items : List α) :
 records sep (word ++ items) =
  match records sep items with
  | [] => [word]
  | first :: more => (word ++ first) :: more := by
 unfold records closed rest
 rw [fields_append clean, nil_append, fields_acc word items]
 generalize fields sep [] items = found
 obtain ⟨done, last⟩ := found
 cases done with
 | nil =>
  cases last with
  | nil => simp [some]
  | cons item last => simp
 | cons field done => rfl

/-! ### Words -/

theorem words_cons (clean : Clean sep word) (some : word ≠ []) (ends : sep item = true) :
 words sep (word ++ item :: items) = word :: words sep items := by
 unfold words
 rw [closed_cons clean ends, rest_cons clean ends, cons_append, filter_cons_of_pos]
 cases word with
 | nil => exact absurd rfl some
 | cons => rfl

theorem words_clean (clean : Clean sep word) (some : word ≠ []) : words sep word = [word] := by
 unfold words
 rw [closed_clean clean, rest_clean clean]
 cases word with
 | nil => exact absurd rfl some
 | cons => rfl

theorem ne_nil_of_mem_words (member : word ∈ words sep items) : word ≠ [] := by
 intro empty
 have kept := (mem_filter.mp member).2
 rw [empty] at kept
 cases kept

/-! ### The items that are no separators -/

theorem length_fields (acc items : List α) :
 (fields sep acc items).1.length = items.countP sep := by
 induction items generalizing acc with
 | nil => rfl
 | cons item items ih =>
  by_cases ends : sep item = true
  · rw [fields, if_pos ends, countP_cons_of_pos ends, length_cons, ih]
  · rw [fields, if_neg ends, countP_cons_of_neg ends, ih]

theorem flatten_fields (acc items : List α) :
 ((fields sep acc items).1.map Prod.fst).flatten ++ (fields sep acc items).2 =
  acc ++ items.filter fun item => !sep item := by
 induction items generalizing acc with
 | nil => exact (append_nil acc).symm
 | cons item items ih =>
  by_cases ends : sep item = true
  · rw [fields, if_pos ends, filter_cons_of_neg (by rw [ends]; decide), map_cons,
     flatten_cons, append_assoc, ih []]
    rfl
  · rw [fields, if_neg ends, ih, append_assoc,
     filter_cons_of_pos (by simpa using ends)]
    rfl

theorem flatten_closed (sep : α → Bool) (items : List α) :
 (closed sep items).flatten ++ rest sep items = items.filter fun item => !sep item :=
 flatten_fields [] items

theorem flatten_records (items : List α) :
 (records sep items).flatten = items.filter fun item => !sep item := by
 rw [← flatten_closed, records, flatten_append]
 cases rest sep items with
 | nil => rfl
 | cons item last => exact congrArg _ (append_nil _)

theorem flatten_words (items : List α) :
 (words sep items).flatten = items.filter fun item => !sep item := by
 have keep (fields : List (List α)) :
  (fields.filter fun word => !word.isEmpty).flatten = fields.flatten := by
  induction fields with
  | nil => rfl
  | cons field fields ih =>
   cases field with
   | nil => exact ih
   | cons item field => exact congrArg ((item :: field) ++ ·) ih
 rw [← flatten_closed, words, keep, flatten_append, flatten_singleton]

end MyNotes.Library.Delimited
