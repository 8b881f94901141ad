/-
Strings of C in a buffer of bytes: what the functions of `string.h` and `strings.h` return for
a pointer, which is an index here.  A string ends before the first NUL.
-/

import Mathlib.Data.List.TakeWhile

namespace MyNotes.Library.CString

open List

abbrev Buffer := List UInt8

def ascii (chars : List Char) : List UInt8 := chars.map fun char => char.toNat.toUInt8

def tolower (byte : UInt8) : UInt8 := if 0x41 ≤ byte ∧ byte ≤ 0x5A then byte + 0x20 else byte

def cstr (buffer : Buffer) (pointer : ℕ) : List UInt8 :=
 (buffer.drop pointer).takeWhile fun byte => byte ≠ 0

/-- The first byte of the string that is among some bytes. -/
def strpbrk (buffer : Buffer) (pointer : ℕ) (accept : List UInt8) : Option ℕ :=
 ((cstr buffer pointer).findIdx? fun byte => byte ∈ accept).map fun offset => pointer + offset

/-- The number of bytes at the start of the string that are among some bytes. -/
def strspn (buffer : Buffer) (pointer : ℕ) (accept : List UInt8) : ℕ :=
 ((cstr buffer pointer).takeWhile fun byte => byte ∈ accept).length

def strchr (buffer : Buffer) (pointer : ℕ) (byte : UInt8) : Option ℕ :=
 strpbrk buffer pointer [byte]

/-- Equality of two strings but for the case of letters. -/
def SameLetters (left right : List UInt8) : Prop := left.map tolower = right.map tolower

instance (left right : List UInt8) : Decidable (SameLetters left right) :=
 inferInstanceAs (Decidable (_ = _))

/-- `strcasecmp(pointer, literal) == 0` -/
def strcasecmp (buffer : Buffer) (pointer : ℕ) (literal : List UInt8) : Bool :=
 SameLetters (cstr buffer pointer) literal

/-- `strncasecmp(pointer, literal, n) == 0` -/
def strncasecmp (buffer : Buffer) (pointer : ℕ) (literal : List UInt8) (n : ℕ) : Bool :=
 SameLetters ((cstr buffer pointer).take n) (literal.take n)

variable {buffer : Buffer} {pointer : ℕ} {text word rest accept : List UInt8} {byte : UInt8}

theorem takeWhile_drop {test : UInt8 → Bool} {bytes : List UInt8}
 (here : bytes.takeWhile test = word ++ rest) :
 (bytes.drop word.length).takeWhile test = rest := by
 induction word generalizing bytes with
 | nil => exact here
 | cons first word ih =>
  cases bytes with
  | nil => cases here
  | cons head bytes =>
   rw [takeWhile_cons] at here
   split at here
   · exact ih (List.cons.inj here).2
   · cases here

theorem takeWhile_set {test : UInt8 → Bool} (stops : test 0 = false) {bytes : List UInt8}
 (here : bytes.takeWhile test = word ++ byte :: rest) :
 (bytes.set word.length 0).takeWhile test = word := by
 induction word generalizing bytes with
 | nil =>
  cases bytes with
  | nil => cases here
  | cons head bytes =>
   simp_all
 | cons first word ih =>
  cases bytes with
  | nil => cases here
  | cons head bytes =>
   rw [takeWhile_cons] at here
   split at here
   · simp_all
   · cases here

theorem cstr_add (here : cstr buffer pointer = word ++ rest) :
 cstr buffer (pointer + word.length) = rest := by
 unfold cstr at here ⊢
 rw [← drop_drop]
 exact takeWhile_drop here

theorem cstr_succ (here : cstr buffer pointer = word ++ byte :: rest) :
 cstr buffer (pointer + word.length + 1) = rest := by
 rw [← singleton_append, ← append_assoc] at here
 have added := cstr_add here
 grind

theorem cstr_set (here : cstr buffer pointer = word ++ byte :: rest) :
 cstr (buffer.set (pointer + word.length) 0) pointer = word := by
 unfold cstr at here ⊢
 rw [drop_set, if_neg (Nat.not_lt.mpr (Nat.le_add_right _ _)), Nat.add_sub_cancel_left]
 exact takeWhile_set (by decide) here

theorem cstr_set_before {index : ℕ} (before : index < pointer) :
 cstr (buffer.set index byte) pointer = cstr buffer pointer := by
 unfold cstr
 rw [drop_set, if_pos before]

theorem strpbrk_found (here : cstr buffer pointer = word ++ byte :: rest)
 (before : ∀ byte ∈ word, byte ∉ accept) (found : byte ∈ accept) :
 strpbrk buffer pointer accept = some (pointer + word.length) := by
 unfold strpbrk
 grind

theorem strpbrk_none (absent : ∀ byte ∈ cstr buffer pointer, byte ∉ accept) :
 strpbrk buffer pointer accept = none := by
 unfold strpbrk
 simp_all

theorem strcasecmp_iff (here : cstr buffer pointer = text) (literal : List UInt8) :
 strcasecmp buffer pointer literal = true ↔ SameLetters text literal := by
 unfold strcasecmp
 rw [decide_eq_true_eq, here]

theorem cstr_strspn : cstr buffer (pointer + strspn buffer pointer accept) =
 (cstr buffer pointer).dropWhile fun byte => byte ∈ accept :=
 cstr_add takeWhile_append_dropWhile.symm

theorem length_strspn : strspn buffer pointer accept +
 ((cstr buffer pointer).dropWhile fun byte => byte ∈ accept).length =
  (cstr buffer pointer).length := by
 unfold strspn
 rw [← length_append, takeWhile_append_dropWhile]

/-! ### Letters -/

theorem SameLetters.length_eq {left right : List UInt8} (same : SameLetters left right) :
 left.length = right.length := by
 have lengths := congrArg List.length same
 simp_all

end MyNotes.Library.CString
