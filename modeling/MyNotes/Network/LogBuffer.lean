/-
The buffer in which `Log::write_log` puts a line together.

What the two formatters and the assignments behind them write is a list of indices of `m_buf` with
their characters, and each call of a formatter comes with its size argument and the space left.
-/

import Mathlib.Algebra.Group.Nat.Defs

namespace MyNotes.Network.LogBuffer

open List Nat

/-- A time stamp as `localtime` and `gettimeofday` give it. -/
structure Timestamp where
 tmYear : ℤ
 tmMon : ℕ
 tmMday : ℕ
 tmHour : ℕ
 tmMin : ℕ
 tmSec : ℕ
 tvUsec : ℕ
 mon : tmMon < 12
 mday : tmMday ≤ 31
 hour : tmHour < 24
 min : tmMin < 60
 /-- There are leap seconds. -/
 sec : tmSec ≤ 60
 usec : tvUsec < 1000000

/-! ### Formatting -/

/-- `%d` of a value as an `int`. -/
def decimal (value : ℤ) : List Char :=
 let int := value.bmod 4294967296
 if int < 0 then '-' :: Nat.toDigits 10 int.natAbs else Nat.toDigits 10 int.natAbs

/-- `%02d` or `%06ld` of a value that is not negative. -/
def zeroPadded (width value : ℕ) : List Char := (Nat.toDigits 10 value).leftpad width '0'

/-- The text that the switch on the level puts into `s`. -/
def levelText (level : ℤ) : List Char :=
 if level = 0 then "[debug]:".toList
 else if level = 1 then "[info]:".toList
 else if level = 2 then "[warn]:".toList
 else if level = 3 then "[erro]:".toList
 else "[info]:".toList

/-- `"%d-%02d-%02d %02d:%02d:%02d.%06ld %s "` -/
def header (time : Timestamp) (level : ℤ) : List Char :=
 List.flatten [decimal (time.tmYear + 1900), ['-'], zeroPadded 2 (time.tmMon + 1), ['-'],
  zeroPadded 2 time.tmMday, [' '], zeroPadded 2 time.tmHour, [':'], zeroPadded 2 time.tmMin,
  [':'], zeroPadded 2 time.tmSec, ['.'], zeroPadded 6 time.tvUsec, [' '], levelText level, [' ']]

theorem decimal_length (value : ℤ) : (decimal value).length ≤ 11 := by
 have low := Int.le_bmod (x := value) (m := 4294967296) (by decide)
 have high := Int.bmod_lt (x := value) (m := 4294967296) (by decide)
 have digits : (toDigits 10 (value.bmod 4294967296).natAbs).length ≤ 10 := by
  rw [length_toDigits_le_iff (by decide) (by decide)]
  omega
 unfold decimal
 dsimp only
 split
 · exact succ_le_succ digits
 · exact le_succ_of_le digits

theorem zeroPadded_length {width value : ℕ} (wide : 0 < width) (fits : value < 10 ^ width) :
 (zeroPadded width value).length = width := by
 rw [zeroPadded, length_leftpad]
 exact Nat.max_eq_left ((Nat.length_toDigits_le_iff (by decide) wide).mpr fits)

theorem levelText_length (level : ℤ) : (levelText level).length ≤ 8 := by
 unfold levelText
 split
 · decide
 · split
   · decide
   · split
     · decide
     · split <;> decide

theorem header_length (time : Timestamp) (level : ℤ) : (header time level).length =
 (decimal (time.tmYear + 1900)).length + 24 + (levelText level).length := by
 have mon := time.mon
 have mday := time.mday
 have hour := time.hour
 have min := time.min
 have sec := time.sec
 simp only [header, length_flatten, map_cons, map_nil, sum_cons,
  sum_nil, length_cons, length_nil]
 rw [zeroPadded_length (by decide) (show time.tmMon + 1 < 10 ^ 2 by omega),
  zeroPadded_length (by decide) (show time.tmMday < 10 ^ 2 by omega),
  zeroPadded_length (by decide) (show time.tmHour < 10 ^ 2 by omega),
  zeroPadded_length (by decide) (show time.tmMin < 10 ^ 2 by omega),
  zeroPadded_length (by decide) (show time.tmSec < 10 ^ 2 by omega),
  zeroPadded_length (by decide) time.usec]
 omega

theorem header_length_lt (time : Timestamp) (level : ℤ) : (header time level).length < 48 := by
 have year := decimal_length (time.tmYear + 1900)
 have text := levelText_length level
 rw [header_length]
 omega

/-! ### Writing -/

def nul : Char := Char.ofNat 0

/-- An `int` as a `size_t`. -/
def sizeT (value : ℤ) : ℕ := if value < 0 then (value + 18446744073709551616).toNat else value.toNat

/-- The indices that `snprintf(m_buf + place, size, ..)` writes for a text, with the characters. -/
def snprintf (place size : ℕ) (text : List Char) : List (ℕ × Char) :=
 if size = 0 then []
 else (text.take (size - 1) ++ [nul]).mapIdx fun index char => (place + index, char)

structure Formatted where
 /-- In the order of time. -/
 writes : List (ℕ × Char)
 /-- A size argument and the number of bytes from the pointer to the end of `m_buf`. -/
 sizes : List (ℕ × ℤ)

/-- `write_log` from the first formatter to the closing NUL. -/
def writeLog (mLogBufSize : ℕ) (time : Timestamp) (level : ℤ) (message : List Char) :
 Formatted :=
 let n := (header time level).length
 let m := message.length
 let size := sizeT (mLogBufSize - n - 1)
 { writes := List.flatten [snprintf 0 48 (header time level), snprintf n size message,
    [(n + m, '\n'), (n + m + 1, nul)]]
   sizes := [(48, mLogBufSize), (size, mLogBufSize - n)] }

structure InBuffer (mLogBufSize : ℕ) (formatted : Formatted) : Prop where
 writes : ∀ write ∈ formatted.writes, write.1 < mLogBufSize
 sizes : ∀ call ∈ formatted.sizes, (call.1 : ℤ) ≤ call.2

theorem snprintf_lt {place size : ℕ} {text : List Char} {write : ℕ × Char}
 (member : write ∈ snprintf place size text) : write.1 < place + size := by
 unfold snprintf at member
 split at member
 · cases member
 · rename_i positive
   grind

variable {mLogBufSize : ℕ} {time : Timestamp} {level : ℤ} {message : List Char}

theorem lastWrite_mem : ((header time level).length + message.length + 1, nul) ∈
 (writeLog mLogBufSize time level message).writes := by
 refine mem_flatten.mpr ⟨[_, _], mem_cons_of_mem _ (mem_cons_of_mem _
  mem_cons_self), mem_cons_of_mem _ mem_cons_self⟩

/--
All of a line is written inside of the buffer, and both size arguments fit, if and only if the
buffer has 48 bytes and room for the date, the level, the message and two more bytes.
-/
theorem writeLog_inBuffer_iff (mLogBufSize : ℕ) (time : Timestamp) (level : ℤ)
 (message : List Char) : InBuffer mLogBufSize (writeLog mLogBufSize time level message) ↔
  48 ≤ mLogBufSize ∧ (decimal (time.tmYear + 1900)).length + 24 + (levelText level).length +
   message.length + 2 ≤ mLogBufSize := by
 rw [← header_length]
 have short := header_length_lt time level
 constructor
 · intro inside
   have first := inside.sizes (48, mLogBufSize) mem_cons_self
   have last := inside.writes _ lastWrite_mem
   dsimp only at first last
   omega
 · rintro ⟨wide, room⟩
   have size : sizeT (mLogBufSize - (header time level).length - 1) =
    mLogBufSize - (header time level).length - 1 := by
    unfold sizeT
    rw [if_neg (by omega)]
    omega
   constructor
   · intro write member
     simp only [writeLog, mem_flatten, mem_cons, not_mem_nil, or_false,
      exists_eq_or_imp, exists_eq_left] at member
     rcases member with inHeader | inMessage | rfl | rfl
     · have bound := snprintf_lt inHeader
       omega
     · have bound := snprintf_lt inMessage
       rw [size] at bound
       omega
     · dsimp only
       omega
     · dsimp only
       omega
   · intro call member
     simp only [writeLog, mem_cons, not_mem_nil, or_false] at member
     rcases member with rfl | rfl
     · dsimp only
       omega
     · dsimp only
       rw [size]
       omega

def epoch : Timestamp where
 tmYear := 70
 tmMon := 0
 tmMday := 1
 tmHour := 0
 tmMin := 0
 tmSec := 0
 tvUsec := 0
 mon := by decide
 mday := by decide
 hour := by decide
 min := by decide
 sec := by decide
 usec := by decide

/-- A message as long as the default buffer is cut off, but its whole length is counted. -/
theorem writeLog_leaves_buffer :
 ¬ InBuffer 8192 (writeLog 8192 epoch 1 (List.replicate 8192 'a')) := by
 intro inside
 have last := inside.writes _ lastWrite_mem
 rw [length_replicate] at last
 omega

end MyNotes.Network.LogBuffer
