/-
The parser works through its buffer as a reader of lines works through the bytes: however the
bytes arrive, and for exactly the requests of the grammar.
-/

import MyNotes.Network.HttpLines

namespace MyNotes.Network.HttpRequest

open Library.CString List Nat

/-- The line at `startLine`: bytes that were looked at, bytes that were read, and the rest of
the buffer.  The ends of the lines before it were overwritten. -/
structure Pending (parser : Parser) (seen rest tail : List UInt8) : Prop where
 here : parser.buffer.drop parser.startLine = seen ++ rest ++ tail
 bound : parser.startLine ≤ parser.buffer.length
 checked : parser.checkedIndex = parser.startLine + seen.length
 read : parser.readIndex = parser.checkedIndex + rest.length
 clean : Clean seen
 before : parser.startLine ≠ 0 → parser.byte (parser.startLine - 1) = 0

variable {parser next : Parser} {seen rest tail text more : List UInt8}

variable {bytes : List UInt8}

theorem byte_of_drop {start : ℕ} (here : parser.buffer.drop start = bytes) (offset : ℕ) :
 parser.byte (start + offset) = bytes.getD offset 0 := by
 unfold Parser.byte
 grind

theorem Pending.byte_checked {byte : UInt8} (pending : Pending parser seen (byte :: rest) tail) :
 parser.byte parser.checkedIndex = byte := by
 rw [pending.checked, byte_of_drop pending.here, append_assoc,
  getD_eq_getElem?_getD, getElem?_append_right (Nat.le_refl _), Nat.sub_self]
 rfl

theorem Pending.byte_next {byte other : UInt8}
 (pending : Pending parser seen (byte :: other :: rest) tail) :
 parser.byte (parser.checkedIndex + 1) = other := by
 rw [pending.checked, Nat.add_assoc, byte_of_drop pending.here, append_assoc,
  getD_eq_getElem?_getD, getElem?_append_right (Nat.le_add_right _ _),
  Nat.add_sub_cancel_left]
 rfl

theorem Pending.byte_previous (pending : Pending parser seen rest tail)
 (inner : parser.checkedIndex > 1) : parser.byte (parser.checkedIndex - 1) ≠ cr := by
 rw [pending.checked] at inner ⊢
 by_cases none : seen = []
 · rw [none, length_nil, Nat.add_zero] at inner ⊢
   rw [pending.before (by omega)]
   decide
 · have positive := length_pos_iff.mpr none
   have within : seen.length - 1 < seen.length := Nat.sub_lt positive Nat.zero_lt_one
   rw [Nat.add_sub_assoc positive, byte_of_drop pending.here, append_assoc,
    getD_eq_getElem?_getD, getElem?_append_left within,
    getElem?_eq_getElem within]
   exact (pending.clean _ (getElem_mem within)).1

structure EndedLine (parser line : Parser) (text rest tail : List UInt8) : Prop where
 here : line.buffer.drop parser.startLine = text ++ 0 :: 0 :: (rest ++ tail)
 checked : line.checkedIndex = parser.startLine + text.length + 2
 read : line.readIndex = line.checkedIndex + rest.length
 startLine : line.startLine = parser.startLine
 checkState : line.checkState = parser.checkState

inductive Scanned (parser : Parser) (bytes tail : List UInt8) : LineStatus × Parser → Prop
 | ok {text rest : List UInt8} {line : Parser} (found : nextLine bytes = .line text rest)
  (ended : EndedLine parser line text rest tail) : Scanned parser bytes tail (.lineOk, line)
 | bad {next : Parser} (found : nextLine bytes = .bad)
  (startLine : next.startLine = parser.startLine)
  (checkState : next.checkState = parser.checkState)
  (order : next.checkedIndex ≤ next.readIndex) (read : next.readIndex = parser.readIndex) :
  Scanned parser bytes tail (.lineBad, next)
 | waits {seen rest : List UInt8} {next : Parser} (found : nextLine bytes = .unfinished)
  (same : seen ++ rest = bytes) (startLine : next.startLine = parser.startLine)
  (checkState : next.checkState = parser.checkState)
  (pending : Pending next seen rest tail) : Scanned parser bytes tail (.lineOpen, next)

theorem Pending.endLine (pending : Pending parser seen (cr :: lf :: rest) tail) :
 EndedLine parser parser.endLine seen rest tail where
 here := by
  change ((parser.buffer.set parser.checkedIndex 0).set (parser.checkedIndex + 1) 0).drop
   parser.startLine = _
  have first : ¬ parser.startLine + seen.length < parser.startLine := by omega
  have second : ¬ parser.startLine + seen.length + 1 < parser.startLine := by omega
  rw [pending.checked, drop_set, if_neg second, drop_set, if_neg first, pending.here,
   Nat.add_sub_cancel_left, Nat.add_assoc, Nat.add_sub_cancel_left, append_assoc,
   set_append_right _ _ (Nat.le_refl _), Nat.sub_self,
   set_append_right _ _ (Nat.le_add_right _ _), Nat.add_sub_cancel_left]
  rfl
 checked := by
  change parser.checkedIndex + 2 = _
  rw [pending.checked]
 read := by
  have read := pending.read
  change parser.readIndex = parser.checkedIndex + 2 + rest.length
  grind
 startLine := rfl
 checkState := rfl

theorem Pending.step {byte : UInt8} (pending : Pending parser seen (byte :: rest) tail)
 (plain : byte ≠ cr ∧ byte ≠ lf) :
 Pending { parser with checkedIndex := parser.checkedIndex + 1 } (seen ++ [byte]) rest tail where
 here := by
  rw [pending.here]
  simp
 bound := pending.bound
 checked := by
  rw [pending.checked, length_append]
  rfl
 read := by
  have read := pending.read
  grind
 clean := by
  intro other member
  rcases mem_append.mp member with before | last
  · exact pending.clean other before
  · simp_all
 before := pending.before

theorem Scanned.of_step {index : ℕ} {result : LineStatus × Parser}
 (scanned : Scanned { parser with checkedIndex := index } bytes tail result) :
 Scanned parser bytes tail result := by
 cases scanned with
 | ok found ended =>
  exact .ok found ⟨ended.here, ended.checked, ended.read, ended.startLine, ended.checkState⟩
 | bad found startLine checkState order read => exact .bad found startLine checkState order read
 | waits found same startLine checkState pending =>
  exact .waits found same startLine checkState pending

theorem scanLine_scanned (pending : Pending parser seen rest tail) :
 Scanned parser (seen ++ rest) tail (parser.scanLine rest.length) := by
 induction rest generalizing parser seen with
 | nil =>
  refine .waits ?_ rfl rfl rfl pending
  rw [nextLine_clean pending.clean]
  rfl
 | cons byte rest ih =>
  simp only [length_cons, Parser.scanLine, pending.byte_checked]
  split
  · rename_i isCr
    subst isCr
    cases rest with
    | nil =>
     have last : parser.checkedIndex + 1 = parser.readIndex := pending.read.symm
     rw [if_pos last]
     refine .waits ?_ rfl rfl rfl pending
     rw [nextLine_clean pending.clean]
     rfl
    | cons other rest =>
     have more : parser.checkedIndex + 1 ≠ parser.readIndex := by
      have read := pending.read
      simp only [length_cons] at read
      omega
     rw [if_neg more, pending.byte_next]
     split
     · rename_i isLf
       subst isLf
       refine .ok ?_ pending.endLine
       rw [nextLine_line pending.clean]
     · rename_i notLf
       refine .bad ?_ rfl rfl ?_ rfl
       · rw [nextLine_clean pending.clean, nextLine, if_pos rfl, endOfLine, if_neg notLf]
       · rw [pending.read]
         exact le_add_right _ _
  · rename_i notCr
    split
    · rename_i isLf
      subst isLf
      rw [if_neg fun both => pending.byte_previous both.1 both.2]
      refine .bad ?_ rfl rfl ?_ rfl
      · rw [nextLine_clean pending.clean]
        rfl
      · rw [pending.read]
        exact le_add_right _ _
    · rename_i notLf
      have scanned := ih (pending.step ⟨notCr, notLf⟩)
      rw [append_assoc, singleton_append] at scanned
      exact scanned.of_step

/-! ### The request line -/

theorem exists_word (text : List UInt8) : (∀ byte ∈ text, byte ∉ blanks) ∨
 ∃ word byte rest, text = word ++ byte :: rest ∧ (∀ byte ∈ word, byte ∉ blanks) ∧
  byte ∈ blanks := by
 induction text with
 | nil => simp
 | cons head text ih =>
  by_cases blank : head ∈ blanks
  · exact .inr ⟨[], head, text, rfl, fun _ none => absurd none not_mem_nil, blank⟩
  · rcases ih with absent | ⟨word, byte, rest, rfl, notBlank, isBlank⟩
    · simp_all
    · grind

/-- A part of `parse_requestline` accepts the strings of a language, and writes into the string
only. -/
structure Parsed (valid : List UInt8 → Prop) (parser : Parser) (temp : ℕ)
 (result : HttpCode × Parser) : Prop where
 behind : ∀ index, temp + (cstr parser.buffer temp).length ≤ index →
  result.2.buffer.drop index = parser.buffer.drop index
 length : result.2.buffer.length = parser.buffer.length
 verdict : (valid (cstr parser.buffer temp) ∧ result.1 = .noRequest ∧
  result.2.checkState = .header) ∨
  (¬ valid (cstr parser.buffer temp) ∧ result.1 = .badRequest ∧
   result.2.checkState = parser.checkState)

theorem byte_cstr (pointer : ℕ) :
 parser.byte pointer = (cstr parser.buffer pointer).headD 0 := by
 have here : parser.byte (pointer + 0) = (parser.buffer.drop pointer).getD 0 0 :=
  byte_of_drop rfl 0
 rw [Nat.add_zero] at here
 rw [here]
 unfold cstr
 cases parser.buffer.drop pointer with
 | nil => rfl
 | cons head rest =>
  rw [takeWhile_cons]
  split
  · rfl
  · rename_i none
    simpa using none

variable {pointer : ℕ}

theorem strchr_found (member : slash ∈ cstr parser.buffer pointer) :
 ∃ path, strchr parser.buffer pointer slash = some path ∧ parser.byte path = slash := by
 obtain ⟨word, rest, here, absent⟩ := eq_append_cons_of_mem member
 refine ⟨pointer + word.length, strpbrk_found here (fun byte before same => ?_)
  mem_cons_self, ?_⟩
 · simp_all
 · rw [byte_cstr, cstr_add here]
   rfl

theorem strchr_none (absent : slash ∉ cstr parser.buffer pointer) :
 strchr parser.buffer pointer slash = none :=
 strpbrk_none fun _ member same => absent (mem_singleton.mp same ▸ member)

def httpScheme : List UInt8 := ascii ['h', 't', 't', 'p', ':', '/', '/']

variable {target : List UInt8}

theorem not_slash_of_scheme {path : List UInt8} (scheme : SameLetters (target.take 7) httpScheme) :
 target ≠ slash :: path := by
 rintro rfl
 have first := congrArg head? scheme
 rw [take_succ_cons, map_cons, head?_cons] at first
 revert first
 decide

theorem target_of_scheme (scheme : SameLetters (target.take 7) httpScheme) :
 Target target ↔ slash ∈ target.drop 7 := by
 constructor
 · rintro (⟨path, same⟩ | ⟨other, host, path, same, http⟩)
   · exact absurd same (not_slash_of_scheme scheme)
   · have seven : other.length = 7 := http.length_eq
     simp_all
 · intro member
   obtain ⟨host, path, split⟩ := append_of_mem member
   refine .inr ⟨target.take 7, host, path, ?_, scheme⟩
   rw [append_assoc, ← split, take_append_drop]

theorem target_of_path (other : ¬ SameLetters (target.take 7) httpScheme) :
 Target target ↔ target.headD 0 = slash := by
 constructor
 · rintro (⟨path, rfl⟩ | ⟨scheme, host, path, rfl, http⟩)
   · rfl
   · have seven : scheme.length = 7 := http.length_eq
     rw [append_assoc, ← seven, take_left] at other
     exact absurd http other
 · intro first
   cases target with
   | nil => exact absurd first (by decide)
   | cons head path => exact .inl ⟨path, by rw [← first]; rfl⟩

theorem target_path {url : ℕ} (here : cstr parser.buffer url = target) :
 Target target ↔ ∃ path, (if strncasecmp parser.buffer url httpScheme 7 then
  strchr parser.buffer (url + 7) slash else some url) = some path ∧
  parser.byte path = slash := by
 have test : strncasecmp parser.buffer url httpScheme 7 = true ↔
  SameLetters (target.take 7) httpScheme := by
  unfold strncasecmp
  rw [decide_eq_true_eq, here]
  rfl
 by_cases scheme : SameLetters (target.take 7) httpScheme
 · have seven : (target.take 7).length = 7 := scheme.length_eq
   have behind : cstr parser.buffer (url + 7) = target.drop 7 := by
    rw [← take_append_drop 7 target] at here
    have added := cstr_add here
    rwa [seven] at added
   rw [target_of_scheme scheme, if_pos (test.mpr scheme), ← behind]
   constructor
   · exact strchr_found
   · rintro ⟨path, found, -⟩
     by_contra absent
     cases (strchr_none absent).symm.trans found
 · rw [target_of_path scheme, if_neg fun same => scheme (test.mp same), ← here, ← byte_cstr]
   constructor
   · exact fun first => ⟨url, rfl, first⟩
   · simp

theorem drop_terminate {index : ℕ} (before : pointer < index) :
 (parser.terminate pointer).buffer.drop index = parser.buffer.drop index := by
 unfold Parser.terminate
 rw [drop_set, if_pos before]

theorem length_terminate (pointer : ℕ) :
 (parser.terminate pointer).buffer.length = parser.buffer.length :=
 length_set

theorem parseTarget_parsed (url : ℕ) :
 Parsed TargetAndVersion parser url (parser.parseTarget url) := by
 rcases exists_word (cstr parser.buffer url) with absent |
  ⟨target, byte, rest, line, notBlank, blank⟩
 · unfold Parser.parseTarget
   rw [strpbrk_none absent]
   exact ⟨fun _ _ => rfl, rfl, .inr ⟨not_targetAndVersion absent, rfl, rfl⟩⟩
 · have length := congrArg length line
   rw [length_append, length_cons] at length
   unfold Parser.parseTarget
   rw [strpbrk_found line notBlank blank]
   simp only
   generalize one : parser.terminate (url + target.length) = next
   have here : cstr next.buffer url = target := one ▸ cstr_set line
   have behindTarget : cstr next.buffer (url + target.length + 1) = rest := by
    rw [← one]
    exact (cstr_set_before (lt_succ_self _)).trans (cstr_succ line)
   have behind (index : ℕ) (late : url + (cstr parser.buffer url).length ≤ index) :
    next.buffer.drop index = parser.buffer.drop index := by
    rw [← one]
    exact drop_terminate (by omega)
   have size : next.buffer.length = parser.buffer.length := one ▸ length_terminate _
   have state : next.checkState = parser.checkState := one ▸ rfl
   have version : cstr next.buffer (url + target.length + 1 +
    strspn next.buffer (url + target.length + 1) blanks) =
    rest.dropWhile fun byte => byte ∈ blanks := behindTarget ▸ cstr_strspn
   have http := strcasecmp_iff version (ascii ['H', 'T', 'T', 'P', '/', '1', '.', '1'])
   have grammar : TargetAndVersion (target ++ byte :: rest) ↔ _ :=
    targetAndVersion_iff notBlank blank
   rw [← line, ← http, target_path here] at grammar
   split
   · rename_i isHttp
     rw [and_iff_left isHttp] at grammar
     split
     · rename_i noPath
       refine ⟨behind, size, .inr ⟨fun valid => ?_, rfl, state⟩⟩
       obtain ⟨path, found, -⟩ := grammar.mp valid
       cases noPath.symm.trans found
     · rename_i path found
       split
       · rename_i first
         exact ⟨behind, size, .inl ⟨grammar.mpr ⟨path, found, first⟩, rfl, rfl⟩⟩
       · rename_i other
         refine ⟨behind, size, .inr ⟨fun valid => ?_, rfl, state⟩⟩
         obtain ⟨otherPath, also, first⟩ := grammar.mp valid
         cases found.symm.trans also
         exact other first
   · rename_i other
     exact ⟨behind, size, .inr ⟨fun valid => other (grammar.mp valid).2, rfl, state⟩⟩

theorem parseRequestline_parsed (temp : ℕ) :
 Parsed RequestLine parser temp (parser.parseRequestline temp) := by
 rcases exists_word (cstr parser.buffer temp) with absent |
  ⟨word, byte, rest, line, notBlank, blank⟩
 · unfold Parser.parseRequestline
   rw [strpbrk_none absent]
   exact ⟨fun _ _ => rfl, rfl, .inr ⟨not_requestLine absent, rfl, rfl⟩⟩
 · have length := congrArg length line
   rw [length_append, length_cons] at length
   unfold Parser.parseRequestline
   rw [strpbrk_found line notBlank blank]
   simp only
   generalize one : parser.terminate (temp + word.length) = next
   have method : cstr next.buffer temp = word := one ▸ cstr_set line
   have behindMethod : cstr next.buffer (temp + word.length + 1) = rest := by
    rw [← one]
    exact (cstr_set_before (lt_succ_self _)).trans (cstr_succ line)
   have behind (index : ℕ) (late : temp + (cstr parser.buffer temp).length ≤ index) :
    next.buffer.drop index = parser.buffer.drop index := by
    rw [← one]
    exact drop_terminate (by omega)
   have size : next.buffer.length = parser.buffer.length := one ▸ length_terminate _
   have state : next.checkState = parser.checkState := one ▸ rfl
   have get := strcasecmp_iff method (ascii ['G', 'E', 'T'])
   have grammar : RequestLine (word ++ byte :: rest) ↔ _ := requestLine_iff notBlank blank
   rw [← line, ← get] at grammar
   split
   · rename_i isGet
     rw [and_iff_right isGet] at grammar
     have url : cstr next.buffer (temp + word.length + 1 +
      strspn next.buffer (temp + word.length + 1) blanks) =
      rest.dropWhile fun byte => byte ∈ blanks := behindMethod ▸ cstr_strspn
     have gap : strspn next.buffer (temp + word.length + 1) blanks +
      (rest.dropWhile fun byte => byte ∈ blanks).length = rest.length :=
      behindMethod ▸ length_strspn
     have target : Parsed TargetAndVersion next _ _ := parseTarget_parsed
      (temp + word.length + 1 + strspn next.buffer (temp + word.length + 1) blanks)
     obtain ⟨later, sameLength, verdict⟩ := target
     rw [url] at later verdict
     refine ⟨fun index late => (later index ?_).trans (behind index late),
      sameLength.trans size, ?_⟩
     · omega
     · rw [grammar, ← state]
       exact verdict
   · rename_i other
     exact ⟨behind, size, .inr ⟨fun valid => other (grammar.mp valid).1, rfl, state⟩⟩

/-! ### All lines -/

/-- The bytes that are read come to a code, and a parser that waits can go on. -/
structure Follows (parser : Parser) (bytes tail : List UInt8) (result : HttpCode × Parser) :
 Prop where
 content : Content parser.checkState parser.startLine bytes result.1 result.2.checkState
  result.2.startLine
 read : result.2.readIndex = parser.readIndex
 order : result.2.checkedIndex ≤ result.2.readIndex
 waits : result.1 = .noRequest → ∃ seen rest,
  seen ++ rest = bytes.drop (result.2.startLine - parser.startLine) ∧
   Pending result.2 seen rest tail

theorem str_append_nul (text more : List UInt8) :
 (text ++ 0 :: more).takeWhile (fun byte => byte ≠ 0) = str text := by
 unfold str
 induction text with
 | nil => rfl
 | cons byte text ih =>
  rw [cons_append, takeWhile_cons, takeWhile_cons]
  split
  · rw [ih]
  · rfl

variable {line line : Parser}

theorem EndedLine.cstr_eq (ended : EndedLine parser line text rest tail) :
 cstr line.buffer parser.startLine = str text := by
 unfold cstr
 rw [ended.here]
 exact str_append_nul text _

theorem str_length_le (text : List UInt8) : (str text).length ≤ text.length :=
 ( takeWhile_prefix _).length_le

theorem EndedLine.pending (ended : EndedLine parser line text rest tail)
 (start : next.startLine = line.checkedIndex) (checked : next.checkedIndex = line.checkedIndex)
 (read : next.readIndex = line.readIndex)
 (behind : ∀ index, parser.startLine + (str text).length ≤ index →
  next.buffer.drop index = line.buffer.drop index) : Pending next [] rest tail := by
 have place := ended.checked
 have ends : next.buffer.drop (parser.startLine + text.length) = 0 :: 0 :: (rest ++ tail) := by
  rw [behind _ (Nat.add_le_add_left (str_length_le text) _), ← drop_drop, ended.here,
   drop_left]
 refine ⟨?_, ?_, ?_, ?_, fun _ none => absurd none not_mem_nil, fun _ => ?_⟩
 · rw [start, place, ← drop_drop, ends]
   rfl
 · have length := congrArg length ends
   grind
 · rw [checked, start]
   rfl
 · rw [read, checked, ended.read]
 · have previous : next.startLine - 1 = parser.startLine + text.length + 1 := by
    omega
   rw [previous, byte_of_drop ends]
   rfl

theorem Follows.after {result : HttpCode × Parser} (found : nextLine bytes = .line text rest)
 (ended : EndedLine parser line text rest tail) (start : next.startLine = line.checkedIndex)
 (read : next.readIndex = line.readIndex) (whole : parser.readIndex = line.readIndex)
 (content : Content next.checkState next.startLine rest result.1 result.2.checkState
  result.2.startLine →
  Content parser.checkState parser.startLine bytes result.1 result.2.checkState
   result.2.startLine) (follows : Follows next rest tail result) :
 Follows parser bytes tail result where
 content := content follows.content
 read := follows.read.trans (read.trans whole.symm)
 order := follows.order
 waits none := by
  obtain ⟨seen, others, same, pending⟩ := follows.waits none
  have order := follows.content.within.1
  have place := start.trans ended.checked
  refine ⟨seen, others, ?_, pending⟩
  rw [same, place, drop_line found (place ▸ order)]

theorem Pending.read_eq (pending : Pending parser seen rest tail) :
 parser.readIndex = parser.startLine + (seen ++ rest).length := by
 rw [pending.read, pending.checked, length_append, Nat.add_assoc]

theorem EndedLine.read_eq (ended : EndedLine parser line text rest tail)
 (found : nextLine bytes = .line text rest) :
 line.readIndex = parser.startLine + bytes.length := by
 have length := congrArg length (line_length found).1
 simp only [length_append, length_cons] at length
 rw [ended.read, ended.checked]
 omega

theorem parseLine_scanned (pending : Pending parser seen rest tail) :
 Scanned parser (seen ++ rest) tail parser.parseLine := by
 have left : parser.readIndex - parser.checkedIndex = rest.length := by
  rw [pending.read, Nat.add_sub_cancel_left]
 unfold Parser.parseLine
 rw [left]
 exact scanLine_scanned pending

theorem str_eq_nil (text : List UInt8) : str text = [] ↔ (str text).headD 0 = 0 := by
 cases same : str text with
 | nil => exact iff_of_true rfl rfl
 | cons head rest =>
  have member : head ∈ text.takeWhile fun byte => byte ≠ 0 := by
   unfold str at same
   rw [same]
   exact mem_cons_self
  have some := all_eq_true.mp all_takeWhile head member
  simp_all

theorem checkLine_request (state : line.checkState = .requestLine) :
 line.checkLine =
  { line with startLine := line.checkedIndex }.parseRequestline line.startLine := by
 simp only [Parser.checkLine, state]

theorem checkLine_header (state : line.checkState = .header) :
 line.checkLine = ({ line with startLine := line.checkedIndex }.parseHeaders line.startLine,
  { line with startLine := line.checkedIndex }) := by
 simp only [Parser.checkLine, state]

section

variable (ended : EndedLine parser line text rest tail)
include ended

theorem EndedLine.pending_checkLine : Pending line.checkLine.2 [] rest tail := by
 obtain ⟨checked, read, start⟩ := line.checkLine_indices
 refine ended.pending start checked read fun index late => ?_
 cases state : line.checkState with
 | requestLine =>
  rw [checkLine_request state]
  refine (parseRequestline_parsed line.startLine).behind index ?_
  rw [ended.startLine, ended.cstr_eq]
  exact late
 | header =>
  rw [checkLine_header state]

theorem EndedLine.request (state : parser.checkState = .requestLine) :
 (RequestLine (str text) ∧ line.checkLine.1 = .noRequest ∧
  line.checkLine.2.checkState = .header) ∨
  (¬ RequestLine (str text) ∧ line.checkLine.1 = .badRequest ∧
   line.checkLine.2.checkState = .requestLine) := by
 have here := ended.checkState.trans state
 have parsed : Parsed RequestLine { line with startLine := line.checkedIndex } _ _ :=
  parseRequestline_parsed line.startLine
 have verdict := parsed.verdict
 rw [ended.startLine, ended.cstr_eq, ← ended.startLine] at verdict
 rw [checkLine_request here]
 simp_all

theorem EndedLine.header (state : parser.checkState = .header) :
 line.checkLine.2.checkState = .header ∧
  ((str text ≠ [] ∧ line.checkLine.1 = .noRequest) ∨
   (str text = [] ∧ line.checkLine.1 = .getRequest)) := by
 have here := ended.checkState.trans state
 have first : line.byte line.startLine = (str text).headD 0 := by
  rw [byte_cstr, ended.startLine, ended.cstr_eq]
 rw [checkLine_header here]
 refine ⟨here, ?_⟩
 change _ ∧ (if line.byte line.startLine = 0 then _ else _) = _ ∨
  _ ∧ (if line.byte line.startLine = 0 then _ else _) = _
 rw [first, ne_eq, str_eq_nil]
 by_cases empty : (str text).headD 0 = 0
 · exact .inr ⟨empty, if_pos empty⟩
 · exact .inl ⟨empty, if_neg empty⟩

end

theorem parseContent_follows (pending : Pending parser seen rest tail) :
 Follows parser (seen ++ rest) tail parser.parseContent := by
 generalize size : (seen ++ rest).length = length
 induction length using Nat.strong_induction_on generalizing parser seen rest with
 | h length ih =>
  have scanned := parseLine_scanned pending
  have whole := pending.read_eq
  rw [Parser.parseContent]
  split
  · rename_i next parsed
    rw [parsed] at scanned
    cases scanned with
    | @waits seen' rest' _ found same startLine checkState pending' =>
     refine ⟨?_, ?_, ?_, fun _ => ⟨seen', rest', ?_, pending'⟩⟩
     · rw [checkState, startLine]
       exact .waits found
     · rw [pending'.read_eq, startLine, same, whole]
     · rw [pending'.read]
       exact Nat.le_add_right _ _
     · simp_all
  · rename_i next parsed
    rw [parsed] at scanned
    cases scanned with
    | bad found startLine checkState order read =>
     refine ⟨?_, read, order, fun none => by cases none⟩
     rw [checkState, startLine]
     exact .bad found
  · rename_i line parsed
    rw [parsed] at scanned
    cases scanned with
    | @ok text more _ found ended =>
     have shorter : more.length < length := by
      have length := congrArg List.length (line_length found).1
      simp only [length_append, length_cons] at length size
      omega
     have read := whole.trans (ended.read_eq found).symm
     obtain ⟨-, sameRead, start⟩ := line.checkLine_indices
     have later := ih more.length shorter ended.pending_checkLine rfl
     cases state : parser.checkState with
     | requestLine =>
      rcases ended.request state with ⟨valid, no, next⟩ | ⟨invalid, bad, next⟩
      · rw [if_pos no]
        refine later.after found ended start sameRead read fun content => ?_
        rw [next, start, ended.checked] at content
        rw [state]
        exact .request found valid content
      · rw [if_neg fun no => absurd (bad.symm.trans no) (by decide)]
        refine ⟨?_, sameRead.trans read.symm, ?_, fun no => ?_⟩
        · rw [state, bad, next, start, ended.checked]
          exact .notRequest found invalid
        · rw [ended.pending_checkLine.read]
          exact Nat.le_add_right _ _
        · cases bad.symm.trans no
     | header =>
      obtain ⟨next, ⟨some, no⟩ | ⟨empty, get⟩⟩ := ended.header state
      · rw [if_pos no]
        refine later.after found ended start sameRead read fun content => ?_
        rw [next, start, ended.checked] at content
        rw [state]
        exact .header found some content
      · rw [if_neg fun no => absurd (get.symm.trans no) (by decide)]
        refine ⟨?_, sameRead.trans read.symm, ?_, fun no => ?_⟩
        · rw [state, get, next, start, ended.checked]
          exact .done found empty
        · rw [ended.pending_checkLine.read]
          exact Nat.le_add_right _ _
        · cases get.symm.trans no

/-! ### Bytes arrive -/

theorem Pending.recv (pending : Pending parser seen rest tail) {chunk : List UInt8}
 (fits : parser.readIndex + chunk.length ≤ bufferSize) :
 Pending (parser.recv chunk) seen (rest ++ chunk) (tail.drop chunk.length) := by
 have whole := pending.read_eq
 have data : chunk.take (bufferSize - parser.readIndex) = chunk :=
  take_of_length_le (by omega)
 have received : parser.recv chunk = { parser with
  buffer := parser.buffer.take parser.readIndex ++ chunk ++
   parser.buffer.drop (parser.readIndex + chunk.length)
  readIndex := parser.readIndex + chunk.length } := by
  unfold Parser.recv
  rw [data]
 have inside : parser.startLine ≤ (parser.buffer.take parser.readIndex).length := by
  rw [length_take]
  exact Nat.le_min.mpr ⟨by omega, pending.bound⟩
 rw [received]
 refine ⟨?_, ?_, pending.checked, ?_, pending.clean, fun later => ?_⟩
 · rw [append_assoc, drop_append_of_le_length inside, drop_take, whole,
    Nat.add_sub_cancel_left, Nat.add_assoc, ← drop_drop, pending.here, take_left,
    ← drop_drop, drop_left]
   simp only [append_assoc]
 · grind
 · rw [pending.read, length_append, Nat.add_assoc]
 · have before := pending.before later
   have index : parser.startLine - 1 < (parser.buffer.take parser.readIndex).length :=
    Nat.lt_of_lt_of_le (Nat.sub_lt (Nat.pos_of_ne_zero later) Nat.zero_lt_one) inside
   have taken := index
   rw [length_take] at taken
   unfold Parser.byte at before ⊢
   grind

/-- A parser that waits for more than the bytes that came. -/
structure Received (parser : Parser) (data : List UInt8) : Prop where
 content : Content .requestLine 0 data .noRequest parser.checkState parser.startLine
 pending : ∃ seen rest tail, seen ++ rest = data.drop parser.startLine ∧
  Pending parser seen rest tail
 read : parser.readIndex = data.length

theorem start_received : Received Parser.start [] where
 content := .waits rfl
 pending := ⟨[], [], replicate bufferSize 0, rfl, rfl, zero_le _, rfl, rfl,
  fun _ none => absurd none not_mem_nil, fun later => absurd rfl later⟩
 read := rfl

variable {data chunk : List UInt8}

theorem Received.parse (received : Received parser data)
 (fits : (data ++ chunk).length ≤ bufferSize) {result : HttpCode × Parser}
 (parsed : (parser.recv chunk).parseContent = result) :
 Content .requestLine 0 (data ++ chunk) result.1 result.2.checkState result.2.startLine ∧
  result.2.readIndex = (data ++ chunk).length ∧ result.2.checkedIndex ≤ result.2.readIndex ∧
  (result.1 = .noRequest → Received result.2 (data ++ chunk)) := by
 obtain ⟨seen, rest, tail, same, pending⟩ := received.pending
 have read := received.read
 rw [length_append] at fits
 have more : Pending (parser.recv chunk) seen (rest ++ chunk) _ := pending.recv (by omega)
 have taken : chunk.take (bufferSize - parser.readIndex) = chunk :=
  take_of_length_le (by omega)
 have length : (parser.recv chunk).readIndex = (data ++ chunk).length := by
  unfold Parser.recv
  rw [taken, length_append, read]
 have follows := parseContent_follows more
 rw [parsed, ← append_assoc, same] at follows
 have content : Content .requestLine 0 (data ++ chunk) result.1 result.2.checkState
  result.2.startLine := received.content.resume follows.content
 refine ⟨content, follows.read.trans length, follows.order, fun no => ⟨no ▸ content, ?_,
  follows.read.trans length⟩⟩
 obtain ⟨seen', rest', left, pending'⟩ := follows.waits no
 refine ⟨seen', rest', _, left.trans ?_, pending'⟩
 have order := follows.content.within.1
 have start : parser.startLine ≤ data.length := by
  have within := received.content.within.2
  rwa [Nat.zero_add] at within
 rw [← drop_append_of_le_length start, drop_drop]
 congr 1
 exact Nat.add_sub_of_le order

theorem Received.receive (received : Received parser data) (chunks : List (List UInt8))
 (fits : (data ++ chunks.flatten).length ≤ bufferSize) :
 ∃ consumed others, chunks.flatten = consumed ++ others ∧
  (parser.receive chunks).2.readIndex = (data ++ consumed).length ∧
  (parser.receive chunks).2.checkedIndex ≤ (parser.receive chunks).2.readIndex ∧
  Content .requestLine 0 (data ++ consumed) (parser.receive chunks).1
   (parser.receive chunks).2.checkState (parser.receive chunks).2.startLine := by
 induction chunks generalizing parser data with
 | nil =>
  refine ⟨[], [], rfl, ?_, ?_, ?_⟩
  · rw [append_nil]
    exact received.read
  · obtain ⟨seen, rest, tail, -, pending⟩ := received.pending
    change parser.checkedIndex ≤ parser.readIndex
    rw [pending.read]
    exact le_add_right _ _
  · rw [append_nil]
    exact received.content
 | cons chunk chunks ih =>
  rw [flatten_cons, ← append_assoc] at fits
  have first : (data ++ chunk).length ≤ bufferSize := by
   rw [length_append] at fits
   omega
  obtain ⟨content, read, order, waits⟩ := received.parse first rfl
  unfold Parser.receive
  generalize (parser.recv chunk).parseContent = result at content read order waits ⊢
  obtain ⟨code, next⟩ := result
  cases code with
  | noRequest =>
   obtain ⟨consumed, others, split, later⟩ := ih (waits rfl) fits
   refine ⟨chunk ++ consumed, others, ?_, ?_⟩
   · simp_all
   · grind
  | getRequest | badRequest =>
   grind

/-- However the bytes are cut, `main` ends with the code and the state of one call on all the
bytes that it has needed. -/
theorem receive_eq_parseContent (chunks : List (List UInt8))
 (fits : chunks.flatten.length ≤ bufferSize) :
 let run := Parser.start.receive chunks
 let whole := (Parser.start.recv (chunks.flatten.take run.2.readIndex)).parseContent
 run.1 = whole.1 ∧ run.2.checkState = whole.2.checkState ∧
  run.2.startLine = whole.2.startLine ∧ run.2.checkedIndex ≤ run.2.readIndex ∧
  whole.2.checkedIndex ≤ whole.2.readIndex := by
 obtain ⟨consumed, others, split, read, order, content⟩ := start_received.receive chunks fits
 rw [nil_append] at read content
 have taken : chunks.flatten.take (Parser.start.receive chunks).2.readIndex = consumed := by
  rw [read, split, take_left]
 have short : ([] ++ consumed).length ≤ bufferSize := by
  rw [split, length_append] at fits
  rw [nil_append]
  omega
 obtain ⟨single, -, singleOrder, -⟩ := start_received.parse short rfl
 rw [nil_append] at single
 obtain ⟨code, state, line⟩ := content.unique single
 simp_all

/-- `GET / HTTP/1.1` and a header, cut within the ends of the lines. -/
def cutRequest : List (List UInt8) :=
 [ascii ['G', 'E', 'T', ' ', '/', ' ', 'H', 'T', 'T', 'P', '/', '1', '.', '1'] ++ [cr],
  [lf] ++ ascii ['H', 'o', 's', 't', ':', 'a'] ++ [cr, lf, cr], [lf]]

theorem receive_eq_parseContent_cut :
 (Parser.start.receive cutRequest).1 = (Parser.start.recv
  (cutRequest.flatten.take (Parser.start.receive cutRequest).2.readIndex)).parseContent.1 :=
 (receive_eq_parseContent cutRequest (by decide)).1

/-! ### The grammar -/

theorem code_classifies {code : HttpCode} {accepted waiting : Prop}
 (ofAccepted : accepted → code = .getRequest) (ofWaiting : waiting → code = .noRequest)
 (one : (code = .getRequest ∧ accepted) ∨ (code = .noRequest ∧ waiting) ∨ code = .badRequest) :
 (code = .getRequest ↔ accepted) ∧ (code = .noRequest ↔ waiting) ∧
  (code = .badRequest ↔ ¬ accepted ∧ ¬ waiting) := by
 rcases one with ⟨rfl, accepts⟩ | ⟨rfl, waits⟩ | rfl
 · have ended : ¬ waiting := fun waits => absurd (ofWaiting waits) (by decide)
   simp [accepts, ended]
 · have refused : ¬ accepted := fun accepts => absurd (ofAccepted accepts) (by decide)
   simp [refused, waits]
 · have refused : ¬ accepted := fun accepts => absurd (ofAccepted accepts) (by decide)
   have ended : ¬ waiting := fun waits => absurd (ofWaiting waits) (by decide)
   simp [refused, ended]

/-- The parser accepts the requests of the grammar, waits for those that it may still get, and
refuses all other bytes. -/
theorem parseContent_grammar (bytes : List UInt8) (nulFree : NulFree bytes)
 (fits : bytes.length ≤ bufferSize) :
 let code := (Parser.start.recv bytes).parseContent.1
 let accepted := ∃ form rest, Form form ∧ bytes = form ++ rest
 let waiting := (∃ more, more ≠ [] ∧ Form (bytes ++ more)) ∨ Waiting bytes
 (code = .getRequest ↔ accepted) ∧ (code = .noRequest ↔ waiting) ∧
  (code = .badRequest ↔ ¬ accepted ∧ ¬ waiting) := by
 have short : ([] ++ bytes).length ≤ bufferSize := fits
 obtain ⟨content, -⟩ := start_received.parse short rfl
 rw [nil_append] at content
 dsimp only
 generalize (Parser.start.recv bytes).parseContent = result at content ⊢
 have ofAccepted : (∃ form rest, Form form ∧ bytes = form ++ rest) → result.1 = .getRequest := by
  rintro ⟨form, rest, isForm, rfl⟩
  obtain ⟨last, final, accepts⟩ := content_of_form isForm nulFree.left
  exact (content.unique accepts).1
 have ofWaiting : (∃ more, more ≠ [] ∧ Form (bytes ++ more)) ∨ Waiting bytes →
  result.1 = .noRequest := by
  intro waiting
  have waits : Waiting bytes := by
   rcases waiting with ⟨more, some, form⟩ | waits
   · exact waiting_of_form some form
   · exact waits
  obtain ⟨last, final, unfinished⟩ := content_of_waiting waits nulFree
  exact (content.unique unfinished).1
 refine code_classifies ofAccepted ofWaiting ?_
 rcases request_of_content content nulFree with accepted | ⟨no, waiting⟩ | bad
 · exact .inl accepted
 · exact .inr (.inl ⟨no, .inr waiting⟩)
 · exact .inr (.inr bad)

theorem parseContent_grammar_cut :
 (Parser.start.recv cutRequest.flatten).parseContent.1 = .getRequest ↔
  ∃ form rest, Form form ∧ cutRequest.flatten = form ++ rest :=
 (parseContent_grammar cutRequest.flatten (by decide) (by decide)).1

end MyNotes.Network.HttpRequest
