/-
`xargs` of lab 1.

`read` returns the input in chunks, each of which fills a part of `buf`.  `fork` succeeds, and
`exec` does not return; it gets the strings that the entries of `xargv` point to.  A write behind
the end of `xargv` has no result.
-/

import MyNotes.Library.CString
import MyNotes.Library.Delimited

namespace MyNotes.Xv6.Xargs

open Library.CString Library.Delimited List

abbrev Str := List UInt8

def maxLine : ℕ := 1024

/-- What the calls of `read` return until the end of the input. -/
structure Reads where
 chunks : List Str
 sizes : ∀ chunk ∈ chunks, 1 ≤ chunk.length ∧ chunk.length ≤ maxLine

def Reads.input (self : Reads) : Str := self.chunks.flatten

def isSpace (byte : UInt8) : Bool := byte = 0x20

def isNewline (byte : UInt8) : Bool := byte = 0x0A

/-- `buf[i]==' ' || buf[i]=='\n'` -/
def isBlank (byte : UInt8) : Bool := isSpace byte || isNewline byte

/-- `xargv[xargc++]=arg` -/
def push (maxarg : ℕ) (xargv : List Str) (arg : Str) : Option (List Str) :=
 if xargv.length < maxarg then some (xargv ++ [arg]) else none

/-- The loop of the child over its chunk, with the bytes that are already in `arg`. -/
def tokenise (maxarg : ℕ) (xargv : List Str) (arg : Str) : Str → Option (List Str)
 | [] => some xargv
 | byte :: bytes =>
  if isBlank byte then
   (push maxarg xargv (cstr arg 0)).bind fun xargv => tokenise maxarg xargv [] bytes
  else tokenise maxarg xargv (arg ++ [byte]) bytes

/-- What the child passes to `exec`, behind `xargv[xargc]=0`. -/
def child (maxarg : ℕ) (xargv : List Str) (chunk : Str) : Option (List Str) :=
 (tokenise maxarg xargv [] chunk).bind fun xargv =>
  if xargv.length < maxarg then some xargv else none

/-- What is passed to `exec`, one list for each child. -/
def main (maxarg : ℕ) (argv : List Str) (reads : Reads) : Option (List (Option (List Str))) :=
 if argv.length < 2 then some []
 else (argv.tail.foldlM (push maxarg) []).map fun xargv =>
  reads.chunks.map (child maxarg xargv)

/-- The command runs once for each line, with the words of the line behind its arguments. -/
def RunsLines (maxarg : ℕ) (argv : List Str) (reads : Reads) : Prop :=
 main maxarg argv reads = some ((records isNewline reads.input).map fun line =>
  some (argv.tail ++ words isSpace line))

/-- A word as `exec` can get it. -/
def Word (word : Str) : Prop := word ≠ [] ∧ ∀ byte ∈ word, isBlank byte = false ∧ byte ≠ 0

/-- Words with one space between them, and a given byte behind the last one. -/
inductive Neat (ending : UInt8) : Str → Prop
 | last {word : Str} (valid : Word word) : Neat ending (word ++ [ending])
 | cons {word text : Str} (valid : Word word) (later : Neat ending text) :
  Neat ending (word ++ 0x20 :: text)

/-- Every chunk is a line with its newline; the last line may end with a space instead. -/
inductive NeatLines : List Str → Prop
 | nil : NeatLines []
 | line {chunk : Str} {chunks : List Str} (neat : Neat 0x0A chunk) (later : NeatLines chunks) :
  NeatLines (chunk :: chunks)
 | last {chunk : Str} (neat : Neat 0x20 chunk) : NeatLines [chunk]

variable {maxarg : ℕ} {xargv argv : List Str} {arg chunk word line : Str} {chunks : List Str}
 {ending : UInt8}

def args (arg chunk : Str) : List Str :=
 (fields isBlank arg chunk).1.map fun field => cstr field.1 0

theorem child_eq : child maxarg xargv chunk =
 if xargv.length + (args [] chunk).length < maxarg then some (xargv ++ args [] chunk)
 else none := by
 unfold child
 generalize ([] : Str) = arg
 induction chunk generalizing xargv arg with
 | nil =>
  change (if xargv.length < maxarg then some xargv else none) =
   if xargv.length < maxarg then some (xargv ++ []) else none
  rw [append_nil]
 | cons byte chunk ih =>
  by_cases blank : isBlank byte = true
  · have added : args arg (byte :: chunk) = cstr arg 0 :: args [] chunk := by
     unfold args
     rw [fields, if_pos blank]
     rfl
    rw [tokenise, if_pos blank, added, length_cons, push]
    by_cases room : xargv.length < maxarg
    · rw [if_pos room, Option.bind_some, ih, length_append, append_assoc]
      exact if_congr (by rw [length_singleton]; omega) rfl rfl
    · rw [if_neg room, if_neg (by omega)]
      rfl
  · have same : args arg (byte :: chunk) = args (arg ++ [byte]) chunk := by
     unfold args
     rw [fields, if_neg blank]
    rw [tokenise, if_neg blank, ih, same]

theorem copied (room : xargv.length + argv.length ≤ maxarg) :
 argv.foldlM (push maxarg) xargv = some (xargv ++ argv) := by
 induction argv generalizing xargv with
 | nil => simp
 | cons arg argv ih =>
  rw [length_cons] at room
  rw [foldlM_cons, push, if_pos (by omega)]
  have later := @ih (xargv ++ [arg]) (by grind)
  rwa [append_assoc] at later

theorem map_child_iff (lines : List Str) : chunks.map (child maxarg xargv) =
 (lines.map fun line => some (xargv ++ words isSpace line)) ↔
 chunks.map (args []) = lines.map (words isSpace) ∧
  ∀ chunk ∈ chunks, xargv.length + (args [] chunk).length < maxarg := by
 induction chunks generalizing lines with
 | nil =>
  cases lines with
  | nil => simp
  | cons line lines => exact iff_of_false (by nofun) fun both => by cases both.1
 | cons chunk chunks ih =>
  cases lines with
  | nil => exact iff_of_false (by nofun) fun both => by cases both.1
  | cons line lines =>
   rw [map_cons, map_cons, cons_eq_cons, ih, map_cons, map_cons,
    cons_eq_cons, forall_mem_cons, child_eq]
   by_cases room : xargv.length + (args [] chunk).length < maxarg
   · rw [if_pos room, Option.some_inj, append_cancel_left_eq]
     grind
   · rw [if_neg room]
     exact iff_of_false (fun all => by cases all.1) fun all => room all.2.1

theorem runsLines_iff {reads : Reads} (command : 2 ≤ argv.length) (room : argv.length ≤ maxarg) :
 RunsLines maxarg argv reads ↔
  reads.chunks.map (args []) = (records isNewline reads.input).map (words isSpace) ∧
   ∀ chunk ∈ reads.chunks, argv.tail.length + (args [] chunk).length < maxarg := by
 have copies : argv.tail.foldlM (push maxarg) [] = some argv.tail :=
  copied (by rw [length_tail, length_nil]; omega)
 unfold RunsLines main
 rw [if_neg (Nat.not_lt.mpr command), copies, Option.map_some, Option.some_inj]
 exact map_child_iff _

/-! ### Words of the two kinds of blanks -/

theorem Word.clean (valid : Word word) : Clean isBlank word := fun byte member =>
 (valid.2 byte member).1

theorem word_letter {byte : UInt8} (plain : isBlank byte = false) (nonzero : byte ≠ 0) :
 Word [byte] :=
 ⟨cons_ne_nil _ _, fun _ member => mem_singleton.mp member ▸ ⟨plain, nonzero⟩⟩

theorem cstr_word (valid : Word word) : cstr word 0 = word := by
 unfold cstr
 rw [drop_zero, takeWhile_eq_self_iff]
 exact fun byte member => decide_eq_true (valid.2 byte member).2

theorem blank_cases {byte : UInt8} (blank : isBlank byte = true) : byte = 0x20 ∨ byte = 0x0A :=
 ((Bool.or_eq_true ..).mp blank).imp of_decide_eq_true of_decide_eq_true

theorem clean_isNewline (clean : Clean isBlank word) : Clean isNewline word := fun byte member =>
 (Bool.or_eq_false_iff.mp (clean byte member)).2

theorem clean_isSpace (clean : Clean isBlank word) : Clean isSpace word := fun byte member =>
 (Bool.or_eq_false_iff.mp (clean byte member)).1

theorem records_space (clean : Clean isBlank word) (text : Str) :
 records isNewline (word ++ 0x20 :: text) =
  match records isNewline text with
  | [] => [word ++ [0x20]]
  | first :: more => (word ++ 0x20 :: first) :: more := by
 have open' : Clean isNewline (word ++ [0x20]) := by
  intro byte member
  rcases mem_append.mp member with inside | last
  · exact clean_isNewline clean byte inside
  · rw [mem_singleton.mp last]
    rfl
 have whole := records_open open' (by simp) text
 rw [append_assoc] at whole
 refine whole.trans ?_
 cases records isNewline text with
 | nil => rfl
 | cons first more => simp

theorem args_cons (valid : Word word) (blank : isBlank ending = true) (text : Str) :
 args [] (word ++ ending :: text) = word :: args [] text := by
 unfold args
 rw [fields_closed valid.clean blank, map_cons, nil_append, cstr_word valid]

/-! ### Neat chunks -/

theorem Neat.newline (neat : Neat 0x0A chunk) (more : Str) :
 ∃ line, records isNewline (chunk ++ more) = line :: records isNewline more ∧
  words isSpace line = args [] chunk := by
 induction neat with
 | last valid =>
  rename_i word
  refine ⟨word, ?_, ?_⟩
  · rw [append_assoc]
    exact records_cons (clean_isNewline valid.clean) rfl
  · rw [words_clean (clean_isSpace valid.clean) valid.1, args_cons valid rfl]
    rfl
 | cons valid _ ih =>
  rename_i word text _
  obtain ⟨line, found, same⟩ := ih
  refine ⟨word ++ 0x20 :: line, ?_, ?_⟩
  · rw [append_assoc, cons_append, records_space valid.clean, found]
  · rw [words_cons (clean_isSpace valid.clean) valid.1 rfl, same, args_cons valid rfl]

theorem Neat.space (neat : Neat 0x20 chunk) : ∃ line, records isNewline chunk = [line] ∧
 words isSpace line = args [] chunk := by
 induction neat with
 | last valid =>
  rename_i word
  refine ⟨word ++ [0x20], records_space valid.clean [], ?_⟩
  rw [words_cons (clean_isSpace valid.clean) valid.1 rfl, args_cons valid rfl]
  rfl
 | cons valid _ ih =>
  rename_i word text _
  obtain ⟨line, found, same⟩ := ih
  refine ⟨word ++ 0x20 :: line, ?_, ?_⟩
  · rw [records_space valid.clean, found]
  · rw [words_cons (clean_isSpace valid.clean) valid.1 rfl, same, args_cons valid rfl]

theorem NeatLines.args (neat : NeatLines chunks) :
 chunks.map (args []) = (records isNewline chunks.flatten).map (words isSpace) := by
 induction neat with
 | nil => rfl
 | line neat _ ih =>
  rename_i chunk chunks _
  obtain ⟨line, found, same⟩ := neat.newline chunks.flatten
  simp_all
 | last neat =>
  obtain ⟨line, found, same⟩ := neat.space
  simp_all

/-! ### Nothing is lost -/

inductive Tokens : Str → List Str → Prop
 | nil : Tokens [] []
 | cons {word text : Str} {blank : UInt8} {words : List Str} (clean : Clean isBlank word)
  (ends : isBlank blank = true) (later : Tokens text words) :
  Tokens (word ++ blank :: text) (word :: words)

theorem tokens_closed (closes : rest isBlank chunk = []) : Tokens chunk (closed isBlank chunk) := by
 generalize size : chunk.length = number
 induction number using Nat.strongRecOn generalizing chunk with
 | _ number ih =>
  rcases clean_or_ends isBlank chunk with clean | ⟨word, blank, text, rfl, clean, ends⟩
  · rw [rest_clean clean] at closes
    rw [closes]
    exact .nil
  · rw [rest_cons clean ends] at closes
    rw [closed_cons clean ends]
    refine .cons clean ends (ih text.length ?_ closes rfl)
    grind

theorem args_eq_map (chunk : Str) :
 args [] chunk = (closed isBlank chunk).map fun word => cstr word 0 := by
 unfold closed args
 rw [map_map]
 rfl

theorem flatten_cstr_le (words : List Str) :
 (words.map fun word => cstr word 0).flatten.length ≤ words.flatten.length ∧
  ((words.map fun word => cstr word 0).flatten.length = words.flatten.length →
   ∀ word ∈ words, cstr word 0 = word) := by
 induction words with
 | nil => simp
 | cons word words ih =>
  have isPrefix : cstr word 0 <+: word := takeWhile_prefix _
  have shorter := isPrefix.length_le
  rw [map_cons, flatten_cons, flatten_cons, length_append,
   length_append]
  refine ⟨Nat.add_le_add shorter ih.1, fun same => forall_mem_cons.mpr ⟨?_, ?_⟩⟩
  · exact isPrefix.eq_of_length (by omega)
  · exact ih.2 (by omega)

theorem args_le (chunk : Str) :
 (args [] chunk).flatten.length ≤ (chunk.filter fun byte => !isBlank byte).length ∧
  ((args [] chunk).flatten.length = (chunk.filter fun byte => !isBlank byte).length →
   rest isBlank chunk = [] ∧ ∀ word ∈ closed isBlank chunk, cstr word 0 = word) := by
 have bytes := congrArg length (flatten_closed isBlank chunk)
 rw [length_append] at bytes
 have cut := flatten_cstr_le (closed isBlank chunk)
 rw [← args_eq_map] at cut
 refine ⟨by omega, fun equal => ⟨?_, cut.2 (by omega)⟩⟩
 exact eq_nil_of_length_eq_zero (by omega)

theorem args_eq_closed (whole : ∀ word ∈ closed isBlank chunk, cstr word 0 = word) :
 args [] chunk = closed isBlank chunk := by
 rw [args_eq_map]
 exact (map_congr_left whole).trans (map_id _)

theorem whole_of_length (same : ((chunks.map (args [])).flatten.flatten).length =
 (chunks.flatten.filter fun byte => !isBlank byte).length) :
 ∀ chunk ∈ chunks, rest isBlank chunk = [] ∧
  ∀ word ∈ closed isBlank chunk, cstr word 0 = word := by
 have bound (chunks : List Str) : ((chunks.map (args [])).flatten.flatten).length ≤
  (chunks.flatten.filter fun byte => !isBlank byte).length := by
  induction chunks with
  | nil => exact Nat.le_refl _
  | cons chunk chunks ih =>
   rw [map_cons, flatten_cons, flatten_append, length_append,
    flatten_cons, filter_append, length_append]
   exact Nat.add_le_add (args_le chunk).1 ih
 induction chunks with
 | nil => simp
 | cons chunk chunks ih =>
  rw [map_cons, flatten_cons, flatten_append, length_append,
   flatten_cons, filter_append, length_append] at same
  have first := args_le chunk
  have later := bound chunks
  exact forall_mem_cons.mpr ⟨first.2 (by omega), ih (by omega)⟩

theorem flatten_lines (input : Str) :
 ((records isNewline input).map (words isSpace)).flatten.flatten =
  input.filter fun byte => !isBlank byte := by
 have each : (flatten ∘ words isSpace) = filter fun byte => !isSpace byte :=
  funext fun line => flatten_words line
 rw [flatten_flatten, map_map, each, ← filter_flatten, flatten_records,
  filter_filter]
 refine filter_congr fun byte _ => ?_
 rw [isBlank, Bool.not_or]

/-! ### The shape of the chunks -/

theorem tokens_ne_nil {words : List Str} (tokens : Tokens chunk words) (some : chunk ≠ []) :
 words ≠ [] := by
 cases tokens with
 | nil => exact absurd rfl some
 | cons => exact cons_ne_nil _ _

theorem first_line {words' : List Str} (tokens : Tokens chunk words') (some : words' ≠ [])
 (valid : ∀ word ∈ words', Word word) {more : Str} {lines : List Str}
 (first : records isNewline (chunk ++ more) = line :: lines)
 (same : words isSpace line = words') :
 (Neat 0x0A chunk ∧ lines = records isNewline more) ∨
  (Neat 0x20 chunk ∧ ((records isNewline more = [] ∧ lines = []) ∨
   ∃ other, records isNewline more = other :: lines ∧ words isSpace other = [])) := by
 induction tokens generalizing line with
 | nil => exact absurd rfl some
 | cons clean ends later ih =>
  rename_i word text blank words'
  obtain ⟨here, others⟩ := forall_mem_cons.mp valid
  rw [append_assoc, cons_append] at first
  rcases blank_cases ends with isSpace' | isNewline'
  · subst isSpace'
    rw [records_space clean] at first
    cases found : records isNewline (text ++ more) with
    | nil =>
     rw [found] at first
     obtain ⟨rfl, rfl⟩ := cons.inj first
     have nothing : text ++ more = [] := by
      by_contra any
      exact records_ne_nil any found
     obtain ⟨rfl, rfl⟩ := append_eq_nil_iff.mp nothing
     exact .inr ⟨.last here, .inl ⟨rfl, rfl⟩⟩
    | cons other rest =>
     rw [found] at first
     obtain ⟨rfl, rfl⟩ := cons.inj first
     rw [words_cons (clean_isSpace clean) here.1 rfl] at same
     have rest' := (cons.inj same).2
     cases later with
     | nil => exact .inr ⟨.last here, .inr ⟨other, found, rest'⟩⟩
     | cons clean' ends' later' =>
      refine (ih (cons_ne_nil _ _) others found rest').imp ?_ ?_
      · exact fun both => ⟨.cons here both.1, both.2⟩
      · exact fun both => ⟨.cons here both.1, both.2⟩
  · subst isNewline'
    rw [records_cons (clean_isNewline clean) rfl] at first
    obtain ⟨rfl, rfl⟩ := cons.inj first
    rw [words_clean (clean_isSpace clean) here.1] at same
    cases later with
    | nil => exact .inl ⟨.last here, rfl⟩
    | cons => cases (cons.inj same).2

theorem words_first_ne_nil {text : Str} {blank : UInt8} (valid : Word word)
 (ends : isBlank blank = true) {lines : List Str}
 (first : records isNewline (word ++ blank :: text) = line :: lines) :
 words isSpace line ≠ [] := by
 rcases blank_cases ends with rfl | rfl
 · rw [records_space valid.clean] at first
   cases found : records isNewline text with
   | nil =>
    rw [found] at first
    obtain ⟨rfl, -⟩ := cons.inj first
    rw [words_cons (clean_isSpace valid.clean) valid.1 rfl]
    exact cons_ne_nil _ _
   | cons other rest =>
    rw [found] at first
    obtain ⟨rfl, -⟩ := cons.inj first
    rw [words_cons (clean_isSpace valid.clean) valid.1 rfl]
    exact cons_ne_nil _ _
 · rw [records_cons (clean_isNewline valid.clean) rfl] at first
   obtain ⟨rfl, -⟩ := cons.inj first
   rw [words_clean (clean_isSpace valid.clean) valid.1]
   exact cons_ne_nil _ _

theorem neatLines_of_closed (full : ∀ chunk ∈ chunks, chunk ≠ [])
 (closes : ∀ chunk ∈ chunks, Tokens chunk (closed isBlank chunk) ∧
  ∀ word ∈ closed isBlank chunk, Word word)
 (same : chunks.map (closed isBlank) =
  (records isNewline chunks.flatten).map (words isSpace)) : NeatLines chunks := by
 induction chunks with
 | nil => exact .nil
 | cons chunk chunks ih =>
  obtain ⟨some, others⟩ := forall_mem_cons.mp full
  obtain ⟨⟨tokens, valid⟩, later⟩ := forall_mem_cons.mp closes
  rw [flatten_cons] at same
  cases first : records isNewline (chunk ++ chunks.flatten) with
  | nil =>
   rw [first] at same
   cases same
  | cons line lines =>
   rw [first, map_cons, map_cons] at same
   obtain ⟨here, rest⟩ := cons.inj same
   rcases first_line tokens (tokens_ne_nil tokens some) valid first here.symm with
    ⟨neat, more⟩ | ⟨neat, ⟨nothing, -⟩ | ⟨other, found, empty⟩⟩
   · rw [more] at rest
     exact .line neat (ih others later rest)
   · have none : chunks.flatten = [] := by
      by_contra any
      exact records_ne_nil any nothing
     cases chunks with
     | nil => exact .last neat
     | cons next chunks =>
      simp_all
   · cases chunks with
     | nil => cases found
     | cons next chunks =>
      obtain ⟨nextTokens, nextValid⟩ := later next mem_cons_self
      generalize closed isBlank next = words' at nextTokens nextValid
      cases nextTokens with
      | nil => exact absurd rfl (others [] mem_cons_self)
      | cons clean ends _ =>
       rw [flatten_cons, append_assoc] at found
       exact absurd empty
        (words_first_ne_nil (nextValid _ mem_cons_self) ends found)

theorem tokens_clean {words : List Str} (tokens : Tokens chunk words) :
 ∀ word ∈ words, Clean isBlank word := by
 induction tokens with
 | nil => simp
 | cons clean _ _ ih => exact forall_mem_cons.mpr ⟨clean, ih⟩

theorem nonzero_of_cstr (same : cstr word 0 = word) : ∀ byte ∈ word, byte ≠ 0 := by
 unfold cstr at same
 simp_all

/-- The command runs once for each line exactly when every read returns one line, in which one
space stands between the words and none elsewhere, with room in `xargv`; the last line may end
with a space and no newline. -/
theorem xargs_runs_lines_iff (maxarg : ℕ) (argv : List Str) (reads : Reads)
 (command : 2 ≤ argv.length) (room : argv.length ≤ maxarg) :
 RunsLines maxarg argv reads ↔ NeatLines reads.chunks ∧
  ∀ chunk ∈ reads.chunks, argv.tail.length + chunk.countP isBlank < maxarg := by
 have count (chunk : Str) : (args [] chunk).length = chunk.countP isBlank :=
  length_map .. |>.trans (length_fields [] chunk)
 rw [runsLines_iff command room]
 simp only [count]
 refine and_congr_left fun _ => ⟨fun same => ?_, NeatLines.args⟩
 have bytes : ((reads.chunks.map (args [])).flatten.flatten).length =
  (reads.chunks.flatten.filter fun byte => !isBlank byte).length := by
  rw [same, flatten_lines]
  rfl
 have whole := whole_of_length bytes
 have closes : reads.chunks.map (args []) = reads.chunks.map (closed isBlank) :=
  map_congr_left fun chunk member => args_eq_closed (whole chunk member).2
 refine neatLines_of_closed (fun chunk member empty => ?_) (fun chunk member => ?_)
  (closes.symm.trans same)
 · have size := (reads.sizes chunk member).1
   rw [empty] at size
   exact absurd size (by decide)
 · have tokens := tokens_closed (whole chunk member).1
   refine ⟨tokens, fun word inside => ⟨?_, fun byte here => ⟨?_, ?_⟩⟩⟩
   · have inLines : closed isBlank chunk ∈
      (records isNewline reads.input).map (words isSpace) := by
      rw [← same, closes]
      exact mem_map_of_mem member
     obtain ⟨line, -, equal⟩ := mem_map.mp inLines
     rw [← equal] at inside
     exact ne_nil_of_mem_words inside
   · exact tokens_clean tokens word inside byte here
   · exact nonzero_of_cstr ((whole chunk member).2 word inside) byte here

theorem xargs_runs_lines_echo :
 RunsLines 32 [[0x78], [0x63]] ⟨[[0x61, 0x0A]], by decide⟩ :=
 (xargs_runs_lines_iff 32 _ _ (by decide) (by decide)).mpr
  ⟨.line (.last (word_letter rfl (by decide))) .nil, by decide⟩

/-- Two lines that one `read` returns make one command, and so does a word without a newline,
which is lost. -/
theorem xargs_joins_lines :
 ¬ RunsLines 32 [[0x78], [0x63]] ⟨[[0x61, 0x0A, 0x62, 0x0A]], by decide⟩ ∧
  ¬ RunsLines 32 [[0x78], [0x63]] ⟨[[0x61]], by decide⟩ := by
 constructor
 · unfold RunsLines
   decide
 · unfold RunsLines
   decide

end MyNotes.Xv6.Xargs
