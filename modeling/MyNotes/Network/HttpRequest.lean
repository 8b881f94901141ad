/-
The HTTP request parser of `httprequest.cpp` and the loop in `main` that feeds it.

The variables that the functions share by reference are the fields of one record.  What the
functions print is left out.
-/

import MyNotes.Library.CString

namespace MyNotes.Network.HttpRequest

open Library.CString

def bufferSize : ℕ := 4096

inductive CheckState where
 | requestLine
 | header
 deriving DecidableEq

inductive LineStatus where
 | lineOk
 | lineBad
 | lineOpen
 deriving DecidableEq

inductive HttpCode where
 | noRequest
 | getRequest
 | badRequest
 deriving DecidableEq

def cr : UInt8 := 0x0D

def lf : UInt8 := 0x0A

/-- `" \t"` -/
def blanks : List UInt8 := [0x20, 0x09]

def slash : UInt8 := 0x2F

structure Parser where
 buffer : Buffer
 checkedIndex : ℕ
 readIndex : ℕ
 startLine : ℕ
 checkState : CheckState

namespace Parser

def start : Parser where
 buffer := List.replicate bufferSize 0
 checkedIndex := 0
 readIndex := 0
 startLine := 0
 checkState := .requestLine

def byte (self : Parser) (index : ℕ) : UInt8 := self.buffer.getD index 0

/-- `*pointer = '\0'` -/
def terminate (self : Parser) (pointer : ℕ) : Parser :=
 { self with buffer := self.buffer.set pointer 0 }

def endLine (self : Parser) : Parser :=
 { (self.terminate self.checkedIndex).terminate (self.checkedIndex + 1) with
  checkedIndex := self.checkedIndex + 2 }

/-- The loop of `parse_line` with some bytes left. -/
def scanLine (self : Parser) : ℕ → LineStatus × Parser
 | 0 => (.lineOpen, self)
 | left + 1 =>
  let temp := self.byte self.checkedIndex
  if temp = cr then
   if self.checkedIndex + 1 = self.readIndex then (.lineOpen, self)
   else if self.byte (self.checkedIndex + 1) = lf then (.lineOk, self.endLine)
   else (.lineBad, self)
  else if temp = lf then
   if self.checkedIndex > 1 ∧ self.byte (self.checkedIndex - 1) = cr then
    (.lineOk, self.endLine)
   else (.lineBad, self)
  else { self with checkedIndex := self.checkedIndex + 1 }.scanLine left

def parseLine (self : Parser) : LineStatus × Parser :=
 self.scanLine (self.readIndex - self.checkedIndex)

/-- `parse_requestline` from the target on. -/
def parseTarget (self : Parser) (url : ℕ) : HttpCode × Parser :=
 match strpbrk self.buffer url blanks with
 | none => (.badRequest, self)
 | some version =>
  let self := self.terminate version
  let version := version + 1
  let version := version + strspn self.buffer version blanks
  if strcasecmp self.buffer version (ascii ['H', 'T', 'T', 'P', '/', '1', '.', '1']) then
   let path :=
    if strncasecmp self.buffer url (ascii ['h', 't', 't', 'p', ':', '/', '/']) 7 then
     strchr self.buffer (url + 7) slash
    else some url
   match path with
   | none => (.badRequest, self)
   | some path =>
    if self.byte path = slash then (.noRequest, { self with checkState := .header })
    else (.badRequest, self)
  else (.badRequest, self)

def parseRequestline (self : Parser) (temp : ℕ) : HttpCode × Parser :=
 match strpbrk self.buffer temp blanks with
 | none => (.badRequest, self)
 | some url =>
  let self := self.terminate url
  if strcasecmp self.buffer temp (ascii ['G', 'E', 'T']) then
   let url := url + 1
   self.parseTarget (url + strspn self.buffer url blanks)
  else (.badRequest, self)

/-- Only an empty line ends the request; what a header says does not matter. -/
def parseHeaders (self : Parser) (temp : ℕ) : HttpCode :=
 if self.byte temp = 0 then .getRequest else .noRequest

theorem scanLine_ok_lt {self next : Parser} {left : ℕ}
 (scanned : self.scanLine left = (.lineOk, next)) :
 self.checkedIndex < next.checkedIndex ∧ 0 < left ∧ next.readIndex = self.readIndex := by
 induction left generalizing self with
 | zero => cases scanned
 | succ left ih =>
  simp only [scanLine] at scanned
  split at scanned
  · split at scanned
    · cases scanned
    · split at scanned
      · cases scanned
        exact ⟨Nat.lt_add_of_pos_right Nat.zero_lt_two, Nat.succ_pos left, rfl⟩
      · cases scanned
  · split at scanned
    · split at scanned
      · cases scanned
        exact ⟨Nat.lt_add_of_pos_right Nat.zero_lt_two, Nat.succ_pos left, rfl⟩
      · cases scanned
    · grind

theorem parseRequestline_indices (self : Parser) (temp : ℕ) :
 (self.parseRequestline temp).2.checkedIndex = self.checkedIndex ∧
  (self.parseRequestline temp).2.readIndex = self.readIndex ∧
  (self.parseRequestline temp).2.startLine = self.startLine := by
 simp only [parseRequestline, parseTarget]
 repeat' split
 all_goals exact ⟨rfl, rfl, rfl⟩

/-- The switch of `parse_content`, for a line that ends before `checkedIndex`.  A code other than
`noRequest` is returned. -/
def checkLine (self : Parser) : HttpCode × Parser :=
 let temp := self.startLine
 let next := { self with startLine := self.checkedIndex }
 match next.checkState with
 | .requestLine => next.parseRequestline temp
 | .header => (next.parseHeaders temp, next)

theorem checkLine_indices (self : Parser) :
 self.checkLine.2.checkedIndex = self.checkedIndex ∧
  self.checkLine.2.readIndex = self.readIndex ∧
  self.checkLine.2.startLine = self.checkedIndex := by
 unfold checkLine
 dsimp only
 split
 · exact parseRequestline_indices _ _
 · exact ⟨rfl, rfl, rfl⟩

/-- Line after line, until one is bad or not there yet. -/
def parseContent (self : Parser) : HttpCode × Parser :=
 match _ : self.parseLine with
 | (.lineOpen, next) => (.noRequest, next)
 | (.lineBad, next) => (.badRequest, next)
 | (.lineOk, line) =>
  if line.checkLine.1 = .noRequest then line.checkLine.2.parseContent else line.checkLine
termination_by self.readIndex - self.checkedIndex
decreasing_by
 obtain ⟨later, some, same⟩ := scanLine_ok_lt ‹self.parseLine = _›
 obtain ⟨checked, read, -⟩ := checkLine_indices line
 rw [checked, read]
 omega

/-- `recv` writes what fits behind the bytes that were read before. -/
def recv (self : Parser) (chunk : List UInt8) : Parser :=
 let data := chunk.take (bufferSize - self.readIndex)
 { self with
  buffer := self.buffer.take self.readIndex ++ data ++
   self.buffer.drop (self.readIndex + data.length)
  readIndex := self.readIndex + data.length }

/-- The loop of `main` on the chunks that `recv` returns, up to the first result. -/
def receive (self : Parser) : List (List UInt8) → HttpCode × Parser
 | [] => (.noRequest, self)
 | chunk :: rest =>
  let (result, next) := (self.recv chunk).parseContent
  match result with
  | .noRequest => next.receive rest
  | _ => (result, next)

end Parser

end MyNotes.Network.HttpRequest
