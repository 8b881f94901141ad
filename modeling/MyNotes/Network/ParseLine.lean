/-
The two `parse_line` functions, of `httprequest.cpp` and of `http_conn`, over the same buffer.

They differ in the branch for an LF behind a CR in front of `checked_index`, so that the loop takes
this branch as a parameter.  An access outside of the buffer has no result.
-/

import MyNotes.Network.HttpRequest

namespace MyNotes.Network.ParseLine

open Option

open MyNotes.Network.HttpRequest (LineStatus cr lf)

structure Line where
 buffer : List UInt8
 checkedIndex : ℕ
 deriving DecidableEq

namespace Line

/-- `buffer[checked_index++] = '\0'` -/
def putNul (self : Line) : Option Line :=
 if self.checkedIndex < self.buffer.length then
  some ⟨self.buffer.set self.checkedIndex 0, self.checkedIndex + 1⟩
 else none

def endLine (self : Line) : Option Line := self.putNul.bind putNul

/-- `m_read_buf[m_checked_idx - 1] = '\0'` and `m_read_buf[m_checked_idx++] = '\0'` -/
def endLineBack (self : Line) : Option Line :=
 if self.checkedIndex - 1 < self.buffer.length then
  putNul { self with buffer := self.buffer.set (self.checkedIndex - 1) 0 }
 else none

/-- The loop with some bytes left, and the branch for an LF behind a CR. -/
def scan (afterCr : Line → Option Line) (readIndex : ℕ) (self : Line) :
 ℕ → Option (LineStatus × Line)
 | 0 => some (.lineOpen, self)
 | left + 1 =>
  self.buffer[self.checkedIndex]?.bind fun temp =>
   if temp = cr then
    if self.checkedIndex + 1 = readIndex then some (.lineOpen, self)
    else
     self.buffer[self.checkedIndex + 1]?.bind fun next =>
      if next = lf then self.endLine.map (LineStatus.lineOk, ·)
      else some (.lineBad, self)
   else if temp = lf then
    if 1 < self.checkedIndex ∧ self.buffer[self.checkedIndex - 1]? = some cr then
     (afterCr self).map (LineStatus.lineOk, ·)
    else some (.lineBad, self)
   else scan afterCr readIndex { self with checkedIndex := self.checkedIndex + 1 } left

/-- `parse_line` of `httprequest.cpp`. -/
def parseLine (self : Line) (readIndex : ℕ) : Option (LineStatus × Line) :=
 self.scan endLine readIndex (readIndex - self.checkedIndex)

/-- `http_conn::parse_line` -/
def httpConnParseLine (self : Line) (readIndex : ℕ) : Option (LineStatus × Line) :=
 self.scan endLineBack readIndex (readIndex - self.checkedIndex)

/-- A byte of the line end in front of the checked index. -/
def LineEnd (before after : Line) (index : ℕ) : Prop :=
 (index + 2 = after.checkedIndex ∧ before.buffer[index]? = some cr) ∨
  (index + 1 = after.checkedIndex ∧ before.buffer[index]? = some lf)

structure Kept (before : Line) (readIndex : ℕ) (status : LineStatus) (after : Line) : Prop where
 checked : after.checkedIndex ≤ readIndex
 changed : ∀ index, after.buffer[index]? ≠ before.buffer[index]? →
  status = .lineOk ∧ LineEnd before after index

/-- Both functions stay in the buffer, do the same, and change only the end of the line. -/
def Agree (before : Line) (readIndex : ℕ) : Prop :=
 ∃ status after, before.parseLine readIndex = some (status, after) ∧
  before.httpConnParseLine readIndex = some (status, after) ∧
   Kept before readIndex status after

/-- The first byte to be checked is an LF with a CR in front of it. -/
def SplitEnd (self : Line) (readIndex : ℕ) : Prop :=
 1 < self.checkedIndex ∧ self.checkedIndex < readIndex ∧
  self.buffer[self.checkedIndex]? = some lf ∧ self.buffer[self.checkedIndex - 1]? = some cr

variable {before line : Line} {readIndex left : ℕ}

theorem endLine_eq (room : line.checkedIndex + 1 < line.buffer.length) : line.endLine =
 some ⟨(line.buffer.set line.checkedIndex 0).set (line.checkedIndex + 1) 0,
  line.checkedIndex + 2⟩ := by
 unfold endLine putNul
 grind

theorem kept_endLine (isCr : line.buffer[line.checkedIndex]? = some cr)
 (isLf : line.buffer[line.checkedIndex + 1]? = some lf)
 (room : line.checkedIndex + 2 ≤ readIndex) : Kept line readIndex .lineOk
  ⟨(line.buffer.set line.checkedIndex 0).set (line.checkedIndex + 1) 0,
   line.checkedIndex + 2⟩ := by
 refine ⟨room, fun index changed => ⟨rfl, ?_⟩⟩
 by_cases second : index = line.checkedIndex + 1
 · exact .inr ⟨by rw [second], second ▸ isLf⟩
 · by_cases first : index = line.checkedIndex
   · exact .inl ⟨by rw [first], first ▸ isCr⟩
   · grind

theorem kept_self (status : LineStatus) (within : line.checkedIndex ≤ readIndex) :
 Kept line readIndex status line :=
 ⟨within, fun _ changed => absurd rfl changed⟩

theorem not_splitEnd_succ (ordinary : line.buffer[line.checkedIndex]? ≠ some cr) :
 ¬ SplitEnd { line with checkedIndex := line.checkedIndex + 1 } readIndex := by
 rintro ⟨_, _, _, behind⟩
 exact ordinary behind

theorem scan_agree (inBuffer : readIndex ≤ line.buffer.length)
 (within : line.checkedIndex + left = readIndex) (apart : ¬ SplitEnd line readIndex)
 (afterCr : Line → Option Line) :
 ∃ status after, Kept line readIndex status after ∧
  line.scan endLineBack readIndex left = some (status, after) ∧
  line.scan afterCr readIndex left = some (status, after) := by
 induction left generalizing line with
 | zero => exact ⟨.lineOpen, line, kept_self _ (Nat.le_of_eq within), rfl, rfl⟩
 | succ left ih =>
  have room : line.checkedIndex < line.buffer.length := by omega
  have here : line.buffer[line.checkedIndex]? = some line.buffer[line.checkedIndex] :=
   List.getElem?_eq_getElem room
  have unchanged : Kept line readIndex .lineBad line := kept_self _ (by omega)
  simp only [scan]
  rw [here]
  simp only [bind_some]
  by_cases isCr : line.buffer[line.checkedIndex] = cr
  · simp only [if_pos isCr]
    by_cases last : line.checkedIndex + 1 = readIndex
    · simp only [if_pos last]
      exact ⟨.lineOpen, line, kept_self _ (by omega), rfl, rfl⟩
    · have nextRoom : line.checkedIndex + 1 < line.buffer.length := by omega
      simp only [if_neg last]
      rw [List.getElem?_eq_getElem nextRoom]
      simp only [bind_some]
      by_cases isLf : line.buffer[line.checkedIndex + 1] = lf
      · simp only [if_pos isLf]
        rw [endLine_eq nextRoom]
        refine ⟨.lineOk, _, kept_endLine (here.trans (congrArg some isCr)) ?_ (by omega),
         rfl, rfl⟩
        simp_all
      · simp_all
  · simp only [if_neg isCr]
    by_cases isLf : line.buffer[line.checkedIndex] = lf
    · have noCr : ¬ (1 < line.checkedIndex ∧
       line.buffer[line.checkedIndex - 1]? = some cr) := fun behind =>
       apart ⟨behind.1, by omega, here.trans (congrArg some isLf), behind.2⟩
      grind
    · simp only [if_neg isLf]
      have ordinary : line.buffer[line.checkedIndex]? ≠ some cr := by
       rw [here]
       exact fun same => isCr (some.inj same)
      obtain ⟨status, after, kept, back, forth⟩ :=
       @ih { line with checkedIndex := line.checkedIndex + 1 } inBuffer
        (by dsimp only; omega) (not_splitEnd_succ ordinary)
      exact ⟨status, after, ⟨kept.checked, kept.changed⟩, back, forth⟩

theorem scan_split (split : SplitEnd line readIndex) (afterCr : Line → Option Line) :
 line.scan afterCr readIndex (left + 1) = (afterCr line).map (LineStatus.lineOk, ·) := by
 obtain ⟨second, _, isLf, isCr⟩ := split
 have notCr : lf ≠ cr := by decide
 simp only [scan]
 simp_all

variable {after : Line}

theorem putNul_checked (put : line.putNul = some after) :
 after.checkedIndex = line.checkedIndex + 1 := by
 unfold putNul at put
 split at put
 · exact some.inj put ▸ rfl
 · cases put

theorem endLine_checked (ended : line.endLine = some after) :
 after.checkedIndex = line.checkedIndex + 2 := by
 obtain ⟨middle, first, second⟩ := bind_eq_some_iff.mp ended
 rw [putNul_checked second, putNul_checked first]

theorem endLineBack_checked (ended : line.endLineBack = some after) :
 after.checkedIndex = line.checkedIndex + 1 := by
 unfold endLineBack at ended
 split at ended
 · have checked := putNul_checked ended
   exact checked
 · cases ended

theorem not_agree_of_splitEnd (split : SplitEnd before readIndex) : ¬ Agree before readIndex := by
 rintro ⟨status, after, forth, back, _⟩
 obtain ⟨left, positive⟩ : ∃ left, readIndex - before.checkedIndex = left + 1 :=
  Nat.exists_eq_add_one.mpr (Nat.sub_pos_of_lt split.2.1)
 unfold parseLine at forth
 unfold httpConnParseLine at back
 rw [positive, scan_split split] at forth back
 obtain ⟨two, ended, same⟩ := map_eq_some_iff.mp forth
 obtain ⟨one, endedBack, sameBack⟩ := map_eq_some_iff.mp back
 have equal : two = one := congrArg Prod.snd (same.trans sameBack.symm)
 have checked := endLine_checked ended
 rw [equal, endLineBack_checked endedBack] at checked
 omega

/--
The two functions do the same and keep to the line end, unless `checked_index` stands on an LF that
has a CR before it.  `LINE_OPEN` leaves `checked_index` on a CR, so no call leads to that place.
-/
theorem parseLine_agree_iff (before : Line) (readIndex : ℕ)
 (checked : before.checkedIndex ≤ readIndex) (inBuffer : readIndex ≤ before.buffer.length) :
 Agree before readIndex ↔ ¬ SplitEnd before readIndex := by
 constructor
 · exact fun agree split => not_agree_of_splitEnd split agree
 · intro apart
   obtain ⟨status, after, kept, back, forth⟩ :=
    scan_agree inBuffer (Nat.add_sub_cancel' checked) apart endLine
   exact ⟨status, after, forth, back, kept⟩

/-- The line `GET`, to be read from its LF on. -/
def exampleSplit : Line where
 buffer := [0x47, 0x45, 0x54, cr, lf, 0x48]
 checkedIndex := 4

theorem parseLine_agree_iff_split :
 4 ≤ 5 ∧ 5 ≤ 6 ∧ (Agree exampleSplit 5 ↔ ¬ SplitEnd exampleSplit 5) :=
 ⟨by decide, by decide, parseLine_agree_iff exampleSplit 5 (by decide) (by decide)⟩

/-- The first function also overwrites the byte behind the LF, which is not yet read. -/
theorem parseLine_differs : 4 ≤ 5 ∧ 5 ≤ 6 ∧ ¬ Agree exampleSplit 5 ∧
 exampleSplit.parseLine 5 = some (.lineOk, ⟨[0x47, 0x45, 0x54, cr, 0, 0], 6⟩) ∧
 exampleSplit.httpConnParseLine 5 =
  some (.lineOk, ⟨[0x47, 0x45, 0x54, 0, 0, 0x48], 5⟩) := by
 refine ⟨by decide, by decide, not_agree_of_splitEnd ?_, by decide, by decide⟩
 exact ⟨by decide, by decide, rfl, rfl⟩

end Line

end MyNotes.Network.ParseLine
