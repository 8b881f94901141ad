/-
`find` of lab 1.

A directory is the list of its dirents, and what each of them names is there with it.  Whether
`open`, `fstat` and `stat` succeed for a path is given, and so are the bytes that a buffer on the
stack starts with.  A write outside of the buffer has no result.
-/

import MyNotes.Library.CString

namespace MyNotes.Xv6.Find

open Library.CString List

abbrev Str := List UInt8

def dirsiz : ℕ := 14

def slash : UInt8 := 0x2F

def dot : Str := [0x2E]

def dotdot : Str := [0x2E, 0x2E]

/-- The name of a dirent that is neither `.` nor `..`. -/
structure Name where
 bytes : Str
 some : bytes ≠ []
 short : bytes.length ≤ dirsiz
 plain : ∀ byte ∈ bytes, byte ≠ 0 ∧ byte ≠ slash
 noDot : bytes ≠ dot
 noDotdot : bytes ≠ dotdot

inductive Entries where
 | nil
 /-- A dirent with `inum` 0. -/
 | free (rest : Entries)
 | dot (rest : Entries)
 | dotdot (rest : Entries)
 | file (name : Name) (rest : Entries)
 | device (name : Name) (rest : Entries)
 | dir (name : Name) (entries rest : Entries)

inductive Node where
 | file
 | device
 | dir (entries : Entries)

inductive Output where
 | found (path : Str)
 | cannotOpen (path : Str)
 | cannotStat (path : Str)
 | tooLong
 deriving DecidableEq

/-- What the kernel answers for a path, and what is on the stack. -/
structure World where
 opens : Str → Bool
 fstats : Str → Bool
 stats : Str → Bool
 stack : Str → Fin 512 → UInt8

/-- `char buf[512]` -/
abbrev Buf := { bytes : Str // bytes.length = 512 }

def Buf.write (self : Buf) (index : ℕ) (bytes : Str) : Option Buf :=
 if fits : index + bytes.length ≤ 512 then
  some ⟨self.1.take index ++ (bytes ++ self.1.drop (index + bytes.length)), by
   grind⟩
 else none

/-- The name with what `static char buf[DIRSIZ+1]` holds behind it cut off. -/
def fmtname (path : Str) : Str :=
 let p := (path.reverse.takeWhile fun byte => byte ≠ slash).reverse
 if dirsiz ≤ p.length then p
 else
  let buf := p ++ List.replicate (dirsiz - p.length) 0x20 ++ [0]
  cstr (buf.set p.length 0) 0

/-- The 14 bytes of `de.name`. -/
def deName (name : Str) : Str := name ++ List.replicate (dirsiz - name.length) 0

section Scan

variable (world : World) (filename : Str)

def enter (path : Str) (loop : Buf → Option (List Output)) : Option (List Output) :=
 if ¬ world.opens path then some [.cannotOpen path]
 else if ¬ world.fstats path then some [.cannotStat path]
 else if 512 < path.length + 1 + dirsiz + 1 then some [.tooLong]
 else
  let buf : Buf := ⟨List.ofFn (world.stack path), length_ofFn⟩
  (buf.write 0 (path ++ [0])).bind fun buf => (buf.write path.length [slash]).bind loop

/-- One dirent of the loop, whose name is copied behind the path in the buffer. -/
def entry (path name : Str) (found : Str → Option (List Output))
 (next : Buf → Option (List Output)) (buf : Buf) : Option (List Output) :=
 (buf.write (path.length + 1) (deName name)).bind fun buf =>
  (buf.write (path.length + 1 + dirsiz) [0]).bind fun buf =>
   let full := cstr buf.1 0
   (if world.stats full then found full else some [.cannotStat full]).bind fun printed =>
    (next buf).map (printed ++ ·)

/-- `T_DIR` -/
def descend (name : Str) (find : Str → Option (List Output)) (full : Str) :
 Option (List Output) :=
 if name ≠ dot ∧ name ≠ dotdot then find full else some []

/-- `T_FILE` -/
def report (full : Str) : List Output :=
 if fmtname full = filename then [.found full] else []

/-- The loop over the dirents that are still to be read. -/
def loop : Entries → Str → Buf → Option (List Output)
 | .nil, _ => fun _ => some []
 | .free rest, path => loop rest path
 | .dot rest, path => entry world path dot (descend dot fun _ => some []) (loop rest path)
 | .dotdot rest, path =>
  entry world path dotdot (descend dotdot fun _ => some []) (loop rest path)
 | .file name rest, path =>
  entry world path name.bytes (fun full => some (report filename full)) (loop rest path)
 | .device name rest, path => entry world path name.bytes (fun _ => some []) (loop rest path)
 | .dir name entries rest, path =>
  entry world path name.bytes
   (descend name.bytes fun full => enter world full (loop entries full)) (loop rest path)

def find (node : Node) (path : Str) : Option (List Output) :=
 match node with
 | .dir entries => enter world path (loop world filename entries path)
 | .file =>
  if ¬ world.opens path then some [.cannotOpen path]
  else if ¬ world.fstats path then some [.cannotStat path]
  else some (report filename path)
 | .device =>
  if ¬ world.opens path then some [.cannotOpen path]
  else if ¬ world.fstats path then some [.cannotStat path]
  else some []

end Scan

/-! ### What is to be found -/

def join (path name : Str) : Str := path ++ slash :: name

/-- The path of every `T_FILE` dirent with the name, in the order of the directories. -/
def Entries.matching (filename : Str) : Entries → Str → List Str
 | .nil, _ => []
 | .free rest, path | .dot rest, path | .dotdot rest, path | .device _ rest, path =>
  rest.matching filename path
 | .file name rest, path =>
  if name.bytes = filename then join path name.bytes :: rest.matching filename path
  else rest.matching filename path
 | .dir name entries rest, path =>
  entries.matching filename (join path name.bytes) ++ rest.matching filename path

/-- The path of every directory leaves room for a name in the buffer. -/
def Entries.Fits : Entries → Str → Prop
 | .nil, path => path.length + 1 + dirsiz + 1 ≤ 512
 | .free rest, path | .dot rest, path | .dotdot rest, path | .file _ rest, path
 | .device _ rest, path => rest.Fits path
 | .dir name entries rest, path => entries.Fits (join path name.bytes) ∧ rest.Fits path

/-- The kernel opens the directories, and answers for all that they hold. -/
def Entries.Answered (world : World) : Entries → Str → Prop
 | .nil, path => world.opens path = true ∧ world.fstats path = true
 | .free rest, path => rest.Answered world path
 | .dot rest, path => world.stats (join path Find.dot) = true ∧ rest.Answered world path
 | .dotdot rest, path => world.stats (join path Find.dotdot) = true ∧ rest.Answered world path
 | .file name rest, path | .device name rest, path =>
  world.stats (join path name.bytes) = true ∧ rest.Answered world path
 | .dir name entries rest, path => world.stats (join path name.bytes) = true ∧
  entries.Answered world (join path name.bytes) ∧ rest.Answered world path

/-! ### The buffer and the names -/

variable {world : World} {filename path name : Str} {entries : Entries} {buf : Buf}

def Text (bytes : Str) : Prop := ∀ byte ∈ bytes, byte ≠ 0

instance (bytes : Str) : Decidable (Text bytes) :=
 List.decidableBAll _ bytes

variable {tail : Str}

theorem Buf.write_eq {before : Str} (bytes : Str) (holds : buf.1 = before ++ tail)
 (fits : before.length + bytes.length ≤ 512) : ∃ next : Buf,
  buf.write before.length bytes = some next ∧
   next.1 = before ++ (bytes ++ tail.drop bytes.length) := by
 unfold Buf.write
 simp_all

theorem cstr_text {bytes : Str} (text : Text bytes) (tail : Str) :
 cstr (bytes ++ 0 :: tail) 0 = bytes := by
 unfold cstr
 rw [drop_zero, takeWhile_append_of_pos fun byte member =>
  decide_eq_true (text byte member), takeWhile_cons_of_neg (by decide), append_nil]

theorem Name.text (name : Name) : Text name.bytes := fun byte member =>
 (name.plain byte member).1

theorem join_text (text : Text path) (named : Text name) : Text (join path name) := by
 intro byte member
 rcases mem_append.mp member with before | later
 · exact text byte before
 · rcases mem_cons.mp later with same | inside
   · rw [same]
     decide
   · exact named byte inside

theorem deName_split (name tail : Str) :
 ∃ more, deName name ++ 0 :: tail = name ++ 0 :: more := by
 unfold deName
 cases blank : dirsiz - name.length with
 | zero => exact ⟨tail, by rw [replicate_zero, append_nil]⟩
 | succ count =>
  refine ⟨replicate count 0 ++ 0 :: tail, ?_⟩
  grind

theorem fmtname_join (text : Text name) (noSlash : ∀ byte ∈ name, byte ≠ slash) :
 fmtname (join path name) = name := by
 have last : ((join path name).reverse.takeWhile fun byte => byte ≠ slash).reverse = name := by
  unfold join
  rw [reverse_append, reverse_cons, append_assoc,
   takeWhile_append_of_pos fun byte member =>
    decide_eq_true (noSlash byte (mem_reverse.mp member)),
   singleton_append, takeWhile_cons_of_neg (by decide), append_nil,
   reverse_reverse]
 unfold fmtname
 rw [last]
 dsimp only
 split
 · rfl
 · rename_i short
   have padded : Text (name ++ 0x20 :: replicate (dirsiz - name.length - 1) 0x20) := by
    intro byte member
    rcases mem_append.mp member with inside | later
    · exact text byte inside
    · rcases mem_cons.mp later with same | blank
      · rw [same]
        decide
      · grind
   have cut := cstr_set (cstr_text padded [])
   grind

/-! ### The loop -/

theorem entry_eq (holds : buf.1 = path ++ slash :: tail) (fits : path.length + 1 + dirsiz + 1 ≤ 512)
 (text : Text path) (named : Text name) (short : name.length ≤ dirsiz)
 (answered : world.stats (join path name) = true) (found : Str → Option (List Output))
 (next : Buf → Option (List Output)) :
 ∃ (after : Buf) (more : Str), after.1 = path ++ slash :: more ∧
  entry world path name found next buf = (found (join path name)).bind fun printed =>
   (next after).map (printed ++ ·) := by
 have size : (deName name).length = dirsiz := by
  unfold deName
  rw [length_append, length_replicate]
  omega
 have split : buf.1 = (path ++ [slash]) ++ tail := by
  rw [holds, append_assoc]
  rfl
 have here : (path ++ [slash]).length = path.length + 1 := length_append
 obtain ⟨copied, writes, bytes⟩ := Buf.write_eq (deName name) split (by omega)
 rw [← append_assoc] at bytes
 have there : (path ++ [slash] ++ deName name).length = path.length + 1 + dirsiz := by
  rw [length_append, here, size]
 obtain ⟨ended, writesNul, whole⟩ := Buf.write_eq [0] bytes (by
  rw [there]
  exact fits)
 rw [here] at writes
 rw [there] at writesNul
 have full : cstr ended.1 0 = join path name := by
  obtain ⟨more, same⟩ := deName_split name ((tail.drop (deName name).length).drop 1)
  rw [whole, append_assoc, append_assoc, singleton_append]
  have cut := cstr_text (join_text text named) more
  unfold join at cut ⊢
  rw [append_assoc, cons_append, ← same] at cut
  exact cut
 refine ⟨ended, deName name ++ ([0] ++ (tail.drop (deName name).length).drop 1), ?_, ?_⟩
 · simp_all
 · unfold entry
   simp_all

theorem Entries.Fits.own (fits : entries.Fits path) : path.length + 1 + dirsiz + 1 ≤ 512 := by
 induction entries with
 | nil => exact fits
 | free _ ih | dot _ ih | dotdot _ ih | file _ _ ih | device _ _ ih => exact ih fits
 | dir _ _ _ _ ih => exact ih fits.2

theorem Entries.Answered.opened (answered : entries.Answered world path) :
 world.opens path = true ∧ world.fstats path = true := by
 induction entries with
 | nil => exact answered
 | free _ ih => exact ih answered
 | dot _ ih | dotdot _ ih | file _ _ ih | device _ _ ih => exact ih answered.2
 | dir _ _ _ _ ih => exact ih answered.2.2

theorem enter_eq (fits : path.length + 1 + dirsiz + 1 ≤ 512)
 (opened : world.opens path = true ∧ world.fstats path = true)
 {loop : Buf → Option (List Output)} {printed : List Output}
 (same : ∀ (buf : Buf) (tail : Str), buf.1 = path ++ slash :: tail → loop buf = some printed) :
 enter world path loop = some printed := by
 unfold enter
 rw [if_neg (not_not.mpr opened.1), if_neg (not_not.mpr opened.2), if_neg (Nat.not_lt.mpr fits)]
 generalize (⟨ofFn (world.stack path), length_ofFn⟩ : Buf) = stack
 have front : stack.1 = [] ++ stack.1 := (nil_append _).symm
 obtain ⟨copied, writes, bytes⟩ := Buf.write_eq (path ++ [0]) front (by
  grind)
 rw [nil_append, append_assoc] at bytes
 obtain ⟨begun, writesSlash, whole⟩ := Buf.write_eq [slash] bytes (by
  rw [length_singleton]
  omega)
 grind

theorem loop_eq (text : Text path) (fits : entries.Fits path)
 (answered : entries.Answered world path) (holds : buf.1 = path ++ slash :: tail) :
 loop world filename entries path buf =
  some ((entries.matching filename path).map Output.found) := by
 induction entries generalizing path buf tail with
 | nil => rfl
 | free rest ih => exact ih text fits answered holds
 | dot rest ih =>
  obtain ⟨after, more, kept, step⟩ := entry_eq holds fits.own text (by decide)
   (Nat.le_of_ble_eq_true rfl)
   answered.1 (descend dot fun _ => some []) (loop world filename rest path)
  rw [loop, step, ih text fits answered.2 kept]
  rfl
 | dotdot rest ih =>
  obtain ⟨after, more, kept, step⟩ := entry_eq holds fits.own text (by decide)
   (Nat.le_of_ble_eq_true rfl)
   answered.1 (descend dotdot fun _ => some []) (loop world filename rest path)
  rw [loop, step, ih text fits answered.2 kept]
  rfl
 | file name rest ih =>
  obtain ⟨after, more, kept, step⟩ := entry_eq holds fits.own text name.text name.short
   answered.1 (fun full => some (report filename full)) (loop world filename rest path)
  rw [loop, step, ih text fits answered.2 kept, Option.bind_some, Option.map_some, report,
   fmtname_join name.text fun byte member => (name.plain byte member).2, Entries.matching]
  by_cases same : name.bytes = filename
  · rw [if_pos same, if_pos same]
    rfl
  · rw [if_neg same, if_neg same]
    rfl
 | device name rest ih =>
  obtain ⟨after, more, kept, step⟩ := entry_eq holds fits.own text name.text name.short
   answered.1 (fun _ => some []) (loop world filename rest path)
  rw [loop, step, ih text fits answered.2 kept]
  rfl
 | dir name entries rest ih ihRest =>
  obtain ⟨after, more, kept, step⟩ := entry_eq holds fits.2.own text name.text name.short
   answered.1
   (descend name.bytes fun full => enter world full (loop world filename entries full))
   (loop world filename rest path)
  have below := enter_eq fits.1.own answered.2.1.opened fun buf tail holds =>
   ih (join_text text name.text) fits.1 answered.2.1 holds
  rw [loop, step, ihRest text fits.2 answered.2.2 kept, descend,
   if_pos ⟨name.noDot, name.noDotdot⟩, below, Entries.matching, map_append]
  rfl

/-- `find` prints the path of every file of the name below a directory and nothing else, and
writes nothing outside of its buffers. -/
theorem find_prints_matches (world : World) (entries : Entries) (path filename : Str)
 (text : Text path) (fits : entries.Fits path) (answered : entries.Answered world path) :
 find world filename (.dir entries) path =
  some ((entries.matching filename path).map Output.found) :=
 enter_eq fits.own answered.opened fun _ _ holds => loop_eq text fits answered holds

def Name.letter (byte : UInt8) (nonzero : byte ≠ 0) (noSlash : byte ≠ slash)
 (noDot : byte ≠ 0x2E) : Name where
 bytes := [byte]
 some := cons_ne_nil _ _
 short := Nat.le_of_ble_eq_true rfl
 plain _ member := mem_singleton.mp member ▸ ⟨nonzero, noSlash⟩
 noDot same := noDot (List.cons.inj same).1
 noDotdot same := cons_ne_nil _ _ (List.cons.inj same).2.symm

/-- A directory with a subdirectory `d`, and the file `f` in both. -/
def exampleEntries : Entries :=
 let d : Name := .letter 0x64 (by decide) (by decide) (by decide)
 let f : Name := .letter 0x66 (by decide) (by decide) (by decide)
 .dot (.dotdot (.file f (.dir d (.dot (.dotdot (.file f .nil))) .nil)))

theorem find_prints_matches_two :
 find ⟨fun _ => true, fun _ => true, fun _ => true, fun _ _ => 0⟩ [0x66] (.dir exampleEntries)
  dot = some [.found [0x2E, 0x2F, 0x66], .found [0x2E, 0x2F, 0x64, 0x2F, 0x66]] :=
 find_prints_matches _ exampleEntries dot [0x66] (by decide)
  ⟨Nat.le_of_ble_eq_true rfl, Nat.le_of_ble_eq_true rfl⟩
  ⟨rfl, rfl, rfl, rfl, ⟨rfl, rfl, rfl, rfl, rfl⟩, rfl, rfl⟩

end MyNotes.Xv6.Find
