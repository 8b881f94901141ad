/-
`lager`: the greatest number that some numbers make up when they are written one after another.
-/

import MyNotes.Library.BoundedSelection
import Mathlib.Data.Char
import Mathlib.Data.List.Lex
import Mathlib.Tactic.Linarith

namespace MyNotes.Algorithms.Lager

open Library.BoundedSelection List Nat

/-- `to_string` of an `int` that is not negative. -/
def toString (num : ℕ) : List Char := Nat.toDigits 10 num

/-- `a + b > b + a`. -/
def greater (a b : List Char) : Bool := b ++ a < a ++ b

def lager (sorter : Sorter (List Char)) (nums : List ℕ) : List Char :=
 (sorter.sort greater (nums.map toString)).flatten

def IsNumber (string : List Char) : Prop := string ≠ [] ∧ ∀ c ∈ string, c.isDigit = true

/-! ### Digit strings as numbers -/

def value (string : List Char) : ℕ := Nat.ofDigitChars 10 string 0

theorem value_append (a b : List Char) : value (a ++ b) = 10 ^ b.length * value a + value b := by
 unfold value
 rw [ofDigitChars_append, ofDigitChars_eq_ofDigitChars_zero]

theorem value_cons (c : Char) (rest : List Char) :
 value (c :: rest) = 10 ^ rest.length * (c.toNat - 48) + value rest := by
 rw [← singleton_append, value_append]
 simp [value, ofDigitChars_cons]

theorem toNat_of_isDigit {c : Char} (digit : c.isDigit = true) : 48 ≤ c.toNat ∧ c.toNat ≤ 57 := by
 unfold Char.isDigit at digit
 simp only [Bool.and_eq_true, decide_eq_true_iff] at digit
 exact ⟨UInt32.le_iff_toNat_le.mp digit.1, UInt32.le_iff_toNat_le.mp digit.2⟩

variable {string : List Char}

theorem value_lt (digits : ∀ c ∈ string, c.isDigit = true) : value string < 10 ^ string.length := by
 induction string with
 | nil => exact one_pos
 | cons c rest ih =>
  have first := toNat_of_isDigit (digits c mem_cons_self)
  have later := ih fun c member => digits c (mem_cons_of_mem _ member)
  rw [value_cons, length_cons, pow_succ]
  have : 10 ^ rest.length * (c.toNat - 48) ≤ 10 ^ rest.length * 9 := by gcongr; omega
  omega

/-- Strings of one length are in the order of their values. -/
theorem lt_iff_value_lt {a b : List Char} (length : a.length = b.length)
 (digits_a : ∀ c ∈ a, c.isDigit = true) (digits_b : ∀ c ∈ b, c.isDigit = true) :
 a < b ↔ value a < value b := by
 induction a generalizing b with
 | nil =>
  rw [length_nil] at length
  rw [length_eq_zero_iff.mp length.symm]
  simp
 | cons c a ih =>
  cases b with
  | nil => cases length
  | cons d b =>
   have length := succ.inj length
   have later_a : ∀ c ∈ a, c.isDigit = true := fun c member =>
    digits_a c (mem_cons_of_mem _ member)
   have later_b : ∀ c ∈ b, c.isDigit = true := fun c member =>
    digits_b c (mem_cons_of_mem _ member)
   have first_a := toNat_of_isDigit (digits_a c mem_cons_self)
   have first_b := toNat_of_isDigit (digits_b d mem_cons_self)
   have small_a := value_lt later_a
   have small_b := value_lt later_b
   have order : c < d ↔ c.toNat < d.toNat := Iff.rfl
   rw [cons_lt_cons_iff, ih length later_a later_b, value_cons, value_cons, order]
   rw [length] at small_a ⊢
   rcases lt_trichotomy c.toNat d.toNat with less | same | more
   · have : 10 ^ b.length * (c.toNat - 48 + 1) ≤ 10 ^ b.length * (d.toNat - 48) := by
      gcongr; omega
     rw [mul_add, mul_one] at this
     exact iff_of_true (.inl less) (by omega)
   · rw [same, Char.toNat_inj.mp same]
     simp
   · have : 10 ^ b.length * (d.toNat - 48 + 1) ≤ 10 ^ b.length * (c.toNat - 48) := by
      gcongr; omega
     rw [mul_add, mul_one] at this
     refine iff_of_false ?_ (by omega)
     rintro (less | ⟨same, -⟩)
     · omega
     · rw [same] at more
       omega

/-! ### The comparator -/

def key (string : List Char) : ℚ := value string / (10 ^ string.length - 1)

theorem greater_iff {a b : List Char} (number_a : IsNumber a) (number_b : IsNumber b) :
 greater a b = true ↔ value (b ++ a) < value (a ++ b) := by
 rw [greater, decide_eq_true_iff]
 apply lt_iff_value_lt (by rw [length_append, length_append, add_comm])
 · exact fun c member => (mem_append.mp member).elim (number_b.2 c) (number_a.2 c)
 · exact fun c member => (mem_append.mp member).elim (number_a.2 c) (number_b.2 c)

theorem one_lt_pow (number : IsNumber string) : (0 : ℚ) < 10 ^ string.length - 1 := by
 have := one_lt_pow₀ (by norm_num : (1 : ℚ) < 10) (length_pos_iff.mpr number.1).ne'
 linarith

theorem greater_iff_key {a b : List Char} (number_a : IsNumber a) (number_b : IsNumber b) :
 greater a b = true ↔ key b < key a := by
 rw [greater_iff number_a number_b, value_append, value_append, key, key,
  div_lt_div_iff₀ (one_lt_pow number_b) (one_lt_pow number_a),
   ← (cast_lt : ((_ : ℕ) : ℚ) < (_ : ℕ) ↔ _)]
 push_cast
 constructor <;> intro less <;> linarith

theorem strictWeakOrder_greater {strings : List (List Char)}
 (numbers : ∀ string ∈ strings, IsNumber string) : StrictWeakOrder greater strings where
 asymm a in_a b in_b less := by
  rw [greater_iff_key (numbers a in_a) (numbers b in_b)] at less
  rw [← Bool.not_eq_true, greater_iff_key (numbers b in_b) (numbers a in_a)]
  exact less.asymm
 negTrans a in_a b in_b c in_c first second := by
  rw [← Bool.not_eq_true, greater_iff_key (numbers _ ‹_›) (numbers _ ‹_›)] at *
  exact not_lt.mpr ((not_lt.mp first).trans (not_lt.mp second))

/-! ### The greatest concatenation -/

theorem value_append_le {a b : List Char} (length : a.length = b.length) (less : value a ≤ value b)
 (before after : List Char) : value (before ++ a ++ after) ≤ value (before ++ b ++ after) := by
 simp only [value_append, length]
 gcongr

/-- A string that none of the others before it is better than moves to the front. -/
theorem value_move_le {front : List (List Char)} (number : IsNumber string)
 (numbers : ∀ other ∈ front, IsNumber other)
 (best : ∀ other ∈ front, greater other string = false) :
 value (front.flatten ++ string) ≤ value (string ++ front.flatten) := by
 induction front with
 | nil => simp
 | cons other front ih =>
  have pair := best other mem_cons_self
  rw [← Bool.not_eq_true, greater_iff (numbers other mem_cons_self) number, not_lt] at pair
  have later := ih (fun each member => numbers each (mem_cons_of_mem _ member))
   fun each member => best each (mem_cons_of_mem _ member)
  calc value ((other :: front).flatten ++ string)
   = value (other ++ (front.flatten ++ string) ++ []) := by simp
   _ ≤ value (other ++ (string ++ front.flatten) ++ []) :=
    value_append_le (by simp [add_comm]) later _ _
   _ = value ([] ++ (other ++ string) ++ front.flatten) := by simp
   _ ≤ value ([] ++ (string ++ other) ++ front.flatten) :=
    value_append_le (by simp [add_comm]) pair _ _
   _ = value (string ++ (other :: front).flatten) := by simp

theorem value_flatten_le {sorted strings : List (List Char)}
 (numbers : ∀ string ∈ sorted, IsNumber string) (ordered : Ordered greater sorted)
 (perm : strings.Perm sorted) : value strings.flatten ≤ value sorted.flatten := by
 induction sorted generalizing strings with
 | nil => rw [perm.eq_nil]
 | cons first sorted ih =>
  obtain ⟨front, back, rfl⟩ := append_of_mem (perm.mem_iff.mpr mem_cons_self)
  have rest : (front ++ back).Perm sorted := (perm_middle.symm.trans perm).cons_inv
  obtain ⟨best, later⟩ := pairwise_cons.mp ordered
  have inRest : ∀ other ∈ front, other ∈ sorted := fun other member =>
   rest.mem_iff.mp (mem_append_left _ member)
  have moved := value_move_le (numbers first mem_cons_self)
   (fun other member => numbers other (mem_cons_of_mem _ (inRest other member)))
   fun other member => best other (inRest other member)
  have kept := ih (fun other member => numbers other (mem_cons_of_mem _ member)) later rest
  calc value (front ++ first :: back).flatten
   = value ([] ++ (front.flatten ++ first) ++ back.flatten) := by simp
   _ ≤ value ([] ++ (first ++ front.flatten) ++ back.flatten) :=
    value_append_le (by simp [add_comm]) moved _ _
   _ = value (first ++ (front ++ back).flatten ++ []) := by simp
   _ ≤ value (first ++ sorted.flatten ++ []) := value_append_le rest.flatten.length_eq kept _ _
   _ = value (first :: sorted).flatten := by simp

theorem isNumber_toString (num : ℕ) : IsNumber (toString num) :=
 ⟨toDigits_ne_nil, fun _ => isDigit_of_mem_toDigits (by decide) (by decide)⟩

def concatenation (nums : List ℕ) : List Char := (nums.map toString).flatten

/-- The comparator is a strict weak order of the digit strings, and `lager` returns the greatest
concatenation. -/
theorem lager_correct (sorter : Sorter (List Char)) :
 (∀ strings, (∀ string ∈ strings, IsNumber string) → StrictWeakOrder greater strings) ∧
  ∀ nums, (∃ order, order.Perm nums ∧ concatenation order = lager sorter nums) ∧
   ∀ order, order.Perm nums → concatenation order ≤ lager sorter nums := by
 refine ⟨fun strings numbers => strictWeakOrder_greater numbers, fun nums => ?_⟩
 have perm := sorter.perm greater (nums.map toString)
 have strings : ∀ string ∈ nums.map toString, IsNumber string := by
  intro string member
  obtain ⟨num, -, rfl⟩ := mem_map.mp member
  exact isNumber_toString num
 have ordered := sorter.ordered greater _ (strictWeakOrder_greater strings)
 unfold lager
 generalize sorter.sort greater (nums.map toString) = sorted at perm ordered
 have numbers : ∀ string ∈ sorted, IsNumber string := fun string member =>
  strings string (perm.mem_iff.mp member)
 have digits : ∀ {texts : List (List Char)}, (∀ string ∈ texts, IsNumber string) →
  ∀ c ∈ texts.flatten, c.isDigit = true := by
  intro texts numbers c member
  obtain ⟨string, inside, member⟩ := mem_flatten.mp member
  exact (numbers string inside).2 c member
 constructor
 · refine ⟨sorted.map value, ?_, ?_⟩
   · have read := perm.map value
     rwa [map_map, show value ∘ toString = id from funext fun _ => Nat.ofDigitChars_ten_toDigits,
      map_id] at read
   · unfold concatenation
     rw [map_map, map_congr_left (g := id), map_id]
     intro string member
     obtain ⟨num, -, rfl⟩ := mem_map.mp (perm.mem_iff.mp member)
     exact congrArg toString Nat.ofDigitChars_ten_toDigits
 · intro order same
   have whole := (same.map toString).trans perm.symm
   have most := value_flatten_le numbers ordered whole
   rw [concatenation, ← not_lt]
   rw [lt_iff_value_lt whole.flatten.length_eq.symm (digits numbers)
    (digits fun string member => numbers string (whole.mem_iff.mp member))]
   exact not_lt.mpr most

end MyNotes.Algorithms.Lager
