/-
`ipToInt`: the value of an IPv4 address, which `main` prints in hexadecimal, line by line.
-/

import Mathlib

namespace MyNotes.Algorithms.IpToInt

open List Option Nat

def number (digits : List Char) : ℕ := Nat.ofDigitChars 10 digits 0

/-- `stoi`, of digits alone; it throws where the value does not fit. -/
def stoi (numStr : List Char) : Option ℕ :=
 if number numStr < 2 ^ 31 then some (number numStr) else none

def isValidNumber (numStr : List Char) : Option Bool :=
 if numStr.isEmpty then some false
 else if !numStr.all Char.isDigit then some false
 else do
  let num ← stoi numStr
  return num ≤ 255

/-- The parts that `getline` reads up to each dot.  It fails at the end of the stream, so nothing
follows a last dot. -/
def parts : List Char → List (List Char)
 | [] => []
 | c :: rest =>
  if c = '.' then [] :: parts rest
  else
   match parts rest with
   | [] => [[c]]
   | part :: more => (c :: part) :: more

def ipToIntLoop : List (List Char) → ℕ → Option ℕ
 | [], result => some result
 | part :: rest, result => do
  if !(← isValidNumber part) then
   return 0
  let num ← stoi part
  ipToIntLoop rest ((result <<< 8) % 2 ^ 32 ||| num)

def ipToInt (ip : List Char) : Option ℕ :=
 if (parts ip).length ≠ 4 then some 0 else ipToIntLoop (parts ip) 0

/-- `std::hex << std::setfill('0') << std::setw(8)`. -/
def hex (num : ℕ) : List Char := leftpad 8 '0' (Nat.toDigits 16 num)

def answer (ip : List Char) : Option (List Char) := do
 let num ← ipToInt ip
 return if num = 0 then ['x'] else hex num

/-- The lines printed, and whether no exception ended the program. -/
def main : List (List Char) → List (List Char) × Bool
 | [] => ([], true)
 | ip :: lines =>
  match answer ip with
  | none => ([], false)
  | some text => (text :: (main lines).1, (main lines).2)

/-! ### What an address is -/

def IsDigits (part : List Char) : Prop := part ≠ [] ∧ ∀ c ∈ part, c.isDigit = true

def IsField (part : List Char) : Prop := IsDigits part ∧ number part ≤ 255

/-- The line is these four fields with single dots between them. -/
structure Address (line : List Char) (fields : List (List Char)) : Prop where
 four : fields.length = 4
 field : ∀ part ∈ fields, IsField part
 eq : line = ['.'].intercalate fields

def value (fields : List (List Char)) : ℕ :=
 fields.foldl (fun result part => result * 256 + number part) 0

/-- What the problem asks to be printed for the line. -/
def Prints (line text : List Char) : Prop :=
 (∀ fields, Address line fields → text = (hex (value fields)).map Char.toUpper) ∧
 ((∀ fields, ¬Address line fields) → text = ['x'])

/-- The first part that is no field is one of digits whose value does not fit in an `int`. -/
def Overflows : List (List Char) → Prop
 | [] => False
 | part :: rest => IsDigits part ∧ 2 ^ 31 ≤ number part ∨ IsField part ∧ Overflows rest

structure Converts (line : List Char) : Prop where
 fits : (parts line).length = 4 → ¬Overflows (parts line)
 digits : ∀ fields, Address line fields →
  value fields ≠ 0 ∧ ∀ digit ∈ Nat.digits 16 (value fields), digit < 10
 ended : ∀ front fields, Address front fields → line = front ++ ['.'] → value fields = 0

/-! ### The parts of a line -/

theorem parts_append_dot (part rest : List Char) (free : '.' ∉ part) :
 parts (part ++ '.' :: rest) = part :: parts rest := by
 induction part with
 | nil => simp [parts]
 | cons c part ih =>
  rw [mem_cons, not_or] at free
  rw [cons_append, parts, if_neg (Ne.symm free.1), ih free.2]

theorem parts_eq_single (free : '.' ∉ part) (some : part ≠ []) :
 parts part = [part] := by
 induction part with
 | nil => exact absurd rfl some
 | cons c part ih =>
  rw [mem_cons, not_or] at free
  rw [parts, if_neg (Ne.symm free.1)]
  cases part with
  | nil => rfl
  | cons d part => rw [ih free.2 (cons_ne_nil _ _)]

theorem IsField.free (field : IsField part) : '.' ∉ part :=
 fun dot => absurd (field.1.2 _ dot) (by decide)

theorem parts_intercalate (field : ∀ part ∈ fields, IsField part) :
 parts (['.'].intercalate fields) = fields ∧
 (fields ≠ [] → parts (['.'].intercalate fields ++ ['.']) = fields) := by
 induction fields with
 | nil => exact ⟨rfl, fun some => absurd rfl some⟩
 | cons part fields ih =>
  have first := field part mem_cons_self
  cases fields with
  | nil =>
   rw [intercalate_singleton]
   exact ⟨parts_eq_single first.free first.1.1, fun _ => parts_append_dot part [] first.free⟩
  | cons next fields =>
   have later := ih fun each member => field each (mem_cons_of_mem _ member)
   rw [intercalate_cons_cons, append_assoc, append_assoc, append_assoc, singleton_append,
    cons_append, parts_append_dot _ _ first.free, parts_append_dot _ _ first.free, later.1]
   exact ⟨rfl, fun _ => congrArg _ (later.2 (cons_ne_nil _ _))⟩

theorem parts_ne_nil (c : Char) (rest : List Char) : parts (c :: rest) ≠ [] := by
 rw [parts]
 split
 · exact cons_ne_nil _ _
 · split <;> exact cons_ne_nil _ _

/-- Nothing but a last dot is lost. -/
theorem eq_intercalate_parts (line : List Char) :
 line = ['.'].intercalate (parts line) ∨ line = ['.'].intercalate (parts line) ++ ['.'] := by
 induction line with
 | nil => exact .inl rfl
 | cons c rest ih =>
  cases rest with
  | nil =>
   by_cases dot : c = '.' <;> simp [parts, dot]
  | cons d rest =>
   obtain ⟨part, more, eq⟩ := exists_cons_of_ne_nil (parts_ne_nil d rest)
   rw [parts, eq]
   rw [eq] at ih
   by_cases dot : c = '.'
   · rw [if_pos dot, dot, intercalate_cons_cons]
     simpa using ih
   · rw [if_neg dot]
     cases more <;> simpa [intercalate_cons_cons] using ih

/-! ### The loop over the parts -/

theorem isValidNumber_of_isDigits (digits : IsDigits part) :
 isValidNumber part = (stoi part).map fun num => decide (num ≤ 255) := by
 rw [isValidNumber, if_neg (by simpa using digits.1), if_neg (by simpa using digits.2)]
 cases stoi part <;> rfl

theorem isValidNumber_of_not_isDigits (bad : ¬IsDigits part) :
 isValidNumber part = some false := by
 rw [isValidNumber]
 by_cases empty : part = []
 · simp [empty]
 · have other : ¬∀ c ∈ part, c.isDigit = true := fun digits => bad ⟨empty, digits⟩
   rw [if_neg (by simpa using empty), if_pos (by simpa using other)]

theorem isValidNumber_of_isField (field : IsField part) :
 isValidNumber part = some true ∧ stoi part = some (number part) := by
 have read : stoi part = some (number part) :=
  if_pos (field.2.trans_lt (by norm_num))
 rw [isValidNumber_of_isDigits field.1, read]
 exact ⟨congrArg some (decide_eq_true field.2), rfl⟩

/-- A part that is not a field ends the loop. -/
theorem isValidNumber_of_not_isField (bad : ¬IsField part) :
 (isValidNumber part = none ∧ IsDigits part ∧ 2 ^ 31 ≤ number part) ∨
 (isValidNumber part = some false ∧ ¬(IsDigits part ∧ 2 ^ 31 ≤ number part)) := by
 by_cases digits : IsDigits part
 · rw [isValidNumber_of_isDigits digits, stoi]
   by_cases small : number part < 2 ^ 31
   · rw [if_pos small]
     exact .inr ⟨congrArg some (decide_eq_false fun byte => bad ⟨digits, byte⟩),
      fun big => by omega⟩
   · rw [if_neg small]
     exact .inl ⟨rfl, digits, not_lt.mp small⟩
 · exact .inr ⟨isValidNumber_of_not_isDigits digits, fun both => digits both.1⟩

/-- The next byte moves the others up. -/
theorem shiftLeft_or {result num : ℕ} (small : result < 2 ^ 24) (byte : num ≤ 255) :
 (result <<< 8) % 2 ^ 32 ||| num = result * 256 + num := by
 have shifted : result <<< 8 = result * 256 := shiftLeft_eq result 8
 rw [mod_eq_of_lt (by omega), ← shiftLeft_add_eq_or_of_lt (by omega), shifted]

theorem ipToIntLoop_of_fields (field : ∀ part ∈ fields, IsField part)
 (result : ℕ) (fits : (result + 1) * 256 ^ fields.length ≤ 2 ^ 32) :
 ipToIntLoop fields result =
  some (fields.foldl (fun result part => result * 256 + number part) result) := by
 induction fields generalizing result with
 | nil => rfl
 | cons part fields ih =>
  have first := field part mem_cons_self
  obtain ⟨valid, read⟩ := isValidNumber_of_isField first
  have bytes : 0 < 256 ^ fields.length := by positivity
  rw [length_cons, pow_succ'] at fits
  have small : result < 2 ^ 24 := by nlinarith
  have later := ih (fun each member => field each (mem_cons_of_mem _ member))
   (result * 256 + number part) (by nlinarith [first.2])
  rw [ipToIntLoop, valid, read]
  simp only [bind_eq_bind, bind_some, Bool.not_true, Bool.false_eq_true, if_false]
  rw [shiftLeft_or small first.2, later, foldl_cons]

/-- The loop ends at the first part that is not a field, with 0 or with an exception. -/
theorem ipToIntLoop_of_not_fields
 (bad : ¬∀ part ∈ fields, IsField part) (result : ℕ) :
 (ipToIntLoop fields result = none ∧ Overflows fields) ∨
 (ipToIntLoop fields result = some 0 ∧ ¬Overflows fields) := by
 induction fields generalizing result with
 | nil => exact absurd (fun _ member => absurd member not_mem_nil) bad
 | cons part fields ih =>
  rw [ipToIntLoop]
  by_cases first : IsField part
  · obtain ⟨valid, read⟩ := isValidNumber_of_isField first
    have later := ih (fun all => bad (forall_mem_cons.mpr ⟨first, all⟩))
     ((result <<< 8) % 2 ^ 32 ||| number part)
    have moved : Overflows (part :: fields) ↔ Overflows fields :=
     (or_iff_right fun big => absurd (big.2.trans first.2) (by norm_num)).trans
      (and_iff_right first)
    rw [valid, read, moved]
    exact later
  · have alone : Overflows (part :: fields) ↔ IsDigits part ∧ 2 ^ 31 ≤ number part :=
     or_iff_left fun both => first both.1
    rw [alone]
    obtain ⟨thrown, big⟩ | ⟨refused, small⟩ := isValidNumber_of_not_isField first
    · exact .inl ⟨by rw [thrown]; rfl, big⟩
    · exact .inr ⟨by rw [refused]; rfl, small⟩

theorem not_overflows (field : ∀ part ∈ fields, IsField part) :
 ¬Overflows fields := by
 induction fields with
 | nil => exact id
 | cons part fields ih =>
  rw [forall_mem_cons] at field
  rintro (big | later)
  · exact absurd (big.2.trans field.1.2) (by norm_num)
  · exact ih field.2 later.2

/-! ### The digits printed -/

theorem toUpper_toDigits_iff (num : ℕ) :
 (Nat.toDigits 16 num).map Char.toUpper = Nat.toDigits 16 num ↔
 ∀ digit ∈ Nat.digits 16 num, digit < 10 := by
 have single : ∀ digit < 16, (Nat.digitChar digit).toUpper = Nat.digitChar digit ↔ digit < 10 := by
  decide
 induction num using Nat.strongRecOn with
 | ind num ih =>
  by_cases small : num < 16
  · rw [Nat.toDigits_of_lt_base small, map_singleton, singleton_inj, single num small]
    rcases Nat.eq_zero_or_pos num with rfl | positive
    · simp
    · simp [Nat.digits_of_lt 16 num positive.ne' small]
  · have last := single (num % 16) (Nat.mod_lt num (by norm_num))
    have others : _ ↔ _ := ih (num / 16) (by omega)
    rw [Nat.toDigits_of_base_le (by norm_num) (not_lt.mp small), map_append, map_singleton,
     Nat.digits_def' (by norm_num) (by omega), forall_mem_cons, ← others, ← last]
    constructor
    · intro same
      obtain ⟨front, last⟩ := append_inj' same rfl
      exact ⟨singleton_inj.mp last, front⟩
    · rintro ⟨same, same'⟩
      rw [same, same']

theorem toUpper_hex_iff (num : ℕ) :
 hex num = (hex num).map Char.toUpper ↔ ∀ digit ∈ digits 16 num, digit < 10 := by
 rw [← toUpper_toDigits_iff, eq_comm, hex, leftpad, map_append, map_replicate]
 exact append_right_inj _

theorem one_lt_length_hex (num : ℕ) : 1 < (hex num).length := by
 rw [hex, length_leftpad]
 omega

/-! ### One line, and all lines -/

theorem Address.read (address : Address line fields) :
 parts line = fields ∧ parts (line ++ ['.']) = fields := by
 have some : fields ≠ [] := fun empty => by
  have four := address.four
  rw [empty] at four
  cases four
 rw [address.eq]
 exact ⟨(parts_intercalate address.field).1, (parts_intercalate address.field).2 some⟩

theorem answer_of_fields (four : (parts line).length = 4)
 (field : ∀ part ∈ parts line, IsField part) :
 answer line = some (if value (parts line) = 0 then ['x'] else hex (value (parts line))) := by
 rw [answer, ipToInt, if_neg (not_not.mpr four),
  ipToIntLoop_of_fields field 0 (by rw [four]; norm_num)]
 rfl

theorem Address.unique (address : Address line fields)
 (address' : Address line other) : other = fields :=
 address'.read.1.symm.trans address.read.1

theorem Address.not_dotted
 (address : Address line fields) (address' : Address front other) : line ≠ front ++ ['.'] := by
 rintro rfl
 have same : other = fields := address'.read.2.symm.trans address.read.1
 have length := congrArg length (address.eq.trans (same ▸ address'.eq.symm))
 rw [length_append] at length
 exact absurd length (succ_ne_self _)

theorem answer_prints_iff_of_address (address : Address line fields) :
 (∃ text, answer line = some text ∧ Prints line text) ↔ Converts line := by
 have read := answer_of_fields (address.read.1 ▸ address.four) (address.read.1 ▸ address.field)
 rw [address.read.1] at read
 constructor
 · rintro ⟨text, printed, upper, -⟩
   have upper := upper fields address
   rw [← some.inj (read.symm.trans printed)] at upper
   refine ⟨fun _ => address.read.1 ▸ not_overflows address.field, fun other address' => ?_,
    fun front other address' dotted => absurd dotted (address.not_dotted address')⟩
   rw [address.unique address']
   split at upper
   · have length := congrArg length upper
     rw [length_map, length_singleton] at length
     exact absurd length (one_lt_length_hex _).ne
   · exact ⟨‹_›, (toUpper_hex_iff _).mp upper⟩
 · intro converts
   obtain ⟨positive, digits⟩ := converts.digits fields address
   rw [if_neg positive] at read
   refine ⟨_, read, fun other address' => ?_, fun none => absurd address (none fields)⟩
   rw [address.unique address']
   exact (toUpper_hex_iff _).mpr digits

theorem answer_prints_iff_of_dotted (address : Address front fields) :
 (∃ text, answer (front ++ ['.']) = some text ∧ Prints (front ++ ['.']) text) ↔
  Converts (front ++ ['.']) := by
 have read := answer_of_fields (address.read.2 ▸ address.four) (address.read.2 ▸ address.field)
 rw [address.read.2] at read
 have none : ∀ other, ¬Address (front ++ ['.']) other := fun other address' =>
  address'.not_dotted address rfl
 constructor
 · rintro ⟨text, printed, -, wrong⟩
   have same := (some.inj (read.symm.trans printed)).trans (wrong none)
   refine ⟨fun _ => address.read.2 ▸ not_overflows address.field,
    fun other address' => absurd address' (none other), fun front' other address' dotted => ?_⟩
   have other_eq : other = fields := by
    rw [← address.read.2, dotted, address'.read.2]
   rw [other_eq]
   by_contra positive
   rw [if_neg positive] at same
   exact (one_lt_length_hex (value fields)).ne' (congrArg length same)
 · intro converts
   rw [if_pos (converts.ended front fields address rfl)] at read
   exact ⟨_, read, fun other address' => absurd address' (none other), fun _ => rfl⟩

theorem answer_prints_iff_of_neither (none : ∀ fields, ¬Address line fields)
 (dotted : ∀ front fields, Address front fields → line ≠ front ++ ['.']) :
 (∃ text, answer line = some text ∧ Prints line text) ↔ Converts line := by
 have converts_iff : Converts line ↔ ((parts line).length = 4 → ¬Overflows (parts line)) :=
  ⟨fun converts => converts.fits, fun fits => ⟨fits, fun fields address =>
   absurd address (none fields), fun front fields address same =>
   absurd same (dotted front fields address)⟩⟩
 have prints : Prints line ['x'] :=
  ⟨fun fields address => absurd address (none fields), fun _ => rfl⟩
 rw [converts_iff, answer, ipToInt]
 by_cases four : (parts line).length = 4
 · have bad : ¬∀ part ∈ parts line, IsField part := by
    intro field
    obtain whole | last := eq_intercalate_parts line
    · exact none _ ⟨four, field, whole⟩
    · exact dotted _ _ ⟨four, field, rfl⟩ last
   rw [if_neg (not_not.mpr four)]
   obtain ⟨thrown, long⟩ | ⟨zero, fits⟩ := ipToIntLoop_of_not_fields bad 0
   · rw [thrown]
     exact iff_of_false (fun ⟨_, printed, _⟩ => nomatch printed) fun fits => fits four long
   · rw [zero]
     exact iff_of_true ⟨_, rfl, prints⟩ fun _ => fits
 · rw [if_pos four]
   exact iff_of_true ⟨_, rfl, prints⟩ fun same => absurd same four

theorem answer_prints_iff (line : List Char) :
 (∃ text, answer line = some text ∧ Prints line text) ↔ Converts line := by
 by_cases whole : ∃ fields, Address line fields
 · obtain ⟨fields, address⟩ := whole
   exact answer_prints_iff_of_address address
 by_cases dotted : ∃ front fields, Address front fields ∧ line = front ++ ['.']
 · obtain ⟨front, fields, address, rfl⟩ := dotted
   exact answer_prints_iff_of_dotted address
 · push Not at whole dotted
   exact answer_prints_iff_of_neither whole dotted

/-- No exception ends the program and every line gets what the problem asks for, exactly when
every line converts. -/
theorem main_prints_iff (lines : List (List Char)) :
 ((main lines).2 = true ∧ Forall₂ Prints lines (main lines).1) ↔
  ∀ line ∈ lines, Converts line := by
 induction lines with
 | nil => exact iff_of_true ⟨rfl, .nil⟩ fun _ member => absurd member not_mem_nil
 | cons line lines ih =>
  rw [forall_mem_cons, ← answer_prints_iff, ← ih, main]
  cases answer line with
  | none =>
   exact iff_of_false (fun both => nomatch both.1) fun ⟨⟨_, printed, _⟩, _⟩ => nomatch printed
  | some text =>
   rw [forall₂_cons]
   constructor
   · exact fun ⟨ended, prints, later⟩ => ⟨⟨text, rfl, prints⟩, ended, later⟩
   · rintro ⟨⟨_, ⟨⟩, prints⟩, ended, later⟩
     exact ⟨ended, prints, later⟩

/-- The problem's own first address gets lower-case digits; 0.0.0.0 gets x, a last dot is let
through, and a long field ends the program. -/
theorem main_not_prints :
 ¬((main ["202.106.0.20".toList]).2 = true ∧
  Forall₂ Prints ["202.106.0.20".toList] (main ["202.106.0.20".toList]).1) ∧
 main ["0.0.0.0".toList, "8.8.4.4.".toList, "1.2.3.2147483648".toList] =
  ([['x'], "08080404".toList], false) := by
 refine ⟨?_, by decide⟩
 have printed : (main ["202.106.0.20".toList]).1 = ["ca6a0014".toList] := by decide
 have address : Address "202.106.0.20".toList
  ["202".toList, "106".toList, "0".toList, "20".toList] :=
  ⟨rfl, by simp [IsField, IsDigits, number]; decide, by decide⟩
 rw [printed, forall₂_cons]
 rintro ⟨-, prints, -⟩
 exact absurd (prints.1 _ address) (by decide)

end MyNotes.Algorithms.IpToInt
