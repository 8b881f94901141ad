/-
The language of requests that `httprequest.cpp` is to accept, and what a reader of lines makes
of the bytes that are there so far.

Both are about bytes only; the buffer of the parser comes later.
-/

import MyNotes.Network.HttpRequest

namespace MyNotes.Network.HttpRequest

open Library.CString List

variable {text word rest more bytes : List UInt8} {byte : UInt8}

/-! ### The request line -/

def Target (target : List UInt8) : Prop :=
 (∃ path, target = slash :: path) ∨ ∃ scheme host path, target = scheme ++ host ++ slash :: path ∧
  SameLetters scheme (ascii ['h', 't', 't', 'p', ':', '/', '/'])

/-- The method, the target and the version, with blanks between them. -/
def RequestLine (line : List UInt8) : Prop :=
 ∃ method gap target secondGap version,
  line = method ++ gap ++ target ++ secondGap ++ version ∧
   SameLetters method (ascii ['G', 'E', 'T']) ∧
   (gap ≠ [] ∧ ∀ byte ∈ gap, byte ∈ blanks) ∧
   (Target target ∧ ∀ byte ∈ target, byte ∉ blanks) ∧
   (secondGap ≠ [] ∧ ∀ byte ∈ secondGap, byte ∈ blanks) ∧
   SameLetters version (ascii ['H', 'T', 'T', 'P', '/', '1', '.', '1'])

def TargetAndVersion (line : List UInt8) : Prop :=
 ∃ target gap version, line = target ++ gap ++ version ∧
  (Target target ∧ ∀ byte ∈ target, byte ∉ blanks) ∧
  (gap ≠ [] ∧ ∀ byte ∈ gap, byte ∈ blanks) ∧
  SameLetters version (ascii ['H', 'T', 'T', 'P', '/', '1', '.', '1'])

theorem not_blank_of_sameLetters {literal : List UInt8} (same : SameLetters word literal)
 (clean : (literal.map tolower).all fun byte => byte ∉ blanks) :
 ∀ byte ∈ word, byte ∉ blanks := by
 intro byte member blank
 have lower : tolower byte = byte := by
  rcases mem_cons.mp blank with space | tab
  · rw [space]
    decide
  · rw [mem_singleton.mp tab]
    decide
 have inside : tolower byte ∈ word.map tolower := mem_map_of_mem member
 rw [same, lower] at inside
 grind

theorem method_not_blank (same : SameLetters word (ascii ['G', 'E', 'T'])) :
 ∀ byte ∈ word, byte ∉ blanks :=
 not_blank_of_sameLetters same (by decide)

theorem version_not_blank
 (same : SameLetters word (ascii ['H', 'T', 'T', 'P', '/', '1', '.', '1'])) :
 ∀ byte ∈ word, byte ∉ blanks :=
 not_blank_of_sameLetters same (by decide)

theorem Target.ne_nil {target : List UInt8} (valid : Target target) : target ≠ [] := by
 rintro rfl
 rcases valid with ⟨path, same⟩ | ⟨scheme, host, path, same, -⟩
 · cases same
 · simp_all

theorem word_unique {left right leftRest rightRest : List UInt8} {leftBlank rightBlank : UInt8}
 (same : left ++ leftBlank :: leftRest = right ++ rightBlank :: rightRest)
 (leftWord : ∀ byte ∈ left, byte ∉ blanks) (rightWord : ∀ byte ∈ right, byte ∉ blanks)
 (leftEnd : leftBlank ∈ blanks) (rightEnd : rightBlank ∈ blanks) :
 left = right ∧ leftRest = rightRest := by
 induction left generalizing right with
 | nil =>
  cases right with
  | nil => exact ⟨rfl, (List.cons.inj same).2⟩
  | cons head right =>
   simp_all
 | cons first left ih =>
  cases right with
  | nil =>
   grind
  | cons head right =>
   obtain ⟨sameHead, sameTail⟩ := List.cons.inj same
   obtain ⟨words, rests⟩ := ih sameTail
    (fun byte member => leftWord byte (mem_cons_of_mem _ member))
    (fun byte member => rightWord byte (mem_cons_of_mem _ member))
   exact ⟨by rw [sameHead, words], rests⟩

theorem exists_blank (blank : word ≠ [] ∧ ∀ byte ∈ word, byte ∈ blanks) :
 ∃ first others, word = first :: others ∧ first ∈ blanks ∧ ∀ byte ∈ others, byte ∈ blanks := by
 obtain ⟨some, all⟩ := blank
 cases word with
 | nil => exact absurd rfl some
 | cons first others =>
  grind

theorem not_requestLine (absent : ∀ byte ∈ text, byte ∉ blanks) : ¬ RequestLine text := by
 rintro ⟨method, gap, target, secondGap, version, rfl, -, blank, -⟩
 obtain ⟨first, others, rfl, isBlank, -⟩ := exists_blank blank
 simp_all

theorem not_targetAndVersion (absent : ∀ byte ∈ text, byte ∉ blanks) :
 ¬ TargetAndVersion text := by
 rintro ⟨target, gap, version, rfl, -, blank, -⟩
 obtain ⟨first, others, rfl, isBlank, -⟩ := exists_blank blank
 simp_all

theorem dropWhile_word (notBlank : ∀ byte ∈ word, byte ∉ blanks) (some : word ≠ []) :
 (word ++ rest).dropWhile (fun byte => byte ∈ blanks) = word ++ rest := by
 cases word with
 | nil => exact absurd rfl some
 | cons head word =>
  simp_all

theorem dropWhile_gap (gap : ∀ byte ∈ text, byte ∈ blanks) :
 (text ++ rest).dropWhile (fun byte => byte ∈ blanks) =
  rest.dropWhile fun byte => byte ∈ blanks :=
 dropWhile_append_of_pos fun byte member => decide_eq_true (gap byte member)

theorem takeWhile_blank : ∀ byte ∈ rest.takeWhile (fun byte => byte ∈ blanks), byte ∈ blanks :=
 fun byte member => of_decide_eq_true (all_eq_true.mp all_takeWhile byte member)

theorem requestLine_iff (notBlank : ∀ byte ∈ word, byte ∉ blanks) (blank : byte ∈ blanks) :
 RequestLine (word ++ byte :: rest) ↔ SameLetters word (ascii ['G', 'E', 'T']) ∧
  TargetAndVersion (rest.dropWhile fun byte => byte ∈ blanks) := by
 constructor
 · rintro ⟨method, gap, target, secondGap, version, same, get, gapBlank, valid, tail⟩
   obtain ⟨first, others, rfl, isBlank, othersBlank⟩ := exists_blank gapBlank
   simp only [append_assoc, cons_append] at same
   obtain ⟨rfl, rfl⟩ := word_unique same notBlank (method_not_blank get) blank isBlank
   refine ⟨get, target, secondGap, version, ?_, valid, tail⟩
   rw [dropWhile_gap othersBlank, dropWhile_word valid.2 valid.1.ne_nil, append_assoc]
 · rintro ⟨get, target, secondGap, version, same, valid, tail⟩
   refine ⟨word, byte :: rest.takeWhile (fun byte => byte ∈ blanks), target, secondGap, version,
    ?_, get, ⟨cons_ne_nil _ _, ?_⟩, valid, tail⟩
   · have whole : rest.takeWhile (fun byte => byte ∈ blanks) ++
      rest.dropWhile (fun byte => byte ∈ blanks) = rest := takeWhile_append_dropWhile
     simp_all
   · intro other member
     rcases mem_cons.mp member with here | there
     · rw [here]
       exact blank
     · exact takeWhile_blank other there

theorem targetAndVersion_iff (notBlank : ∀ byte ∈ word, byte ∉ blanks) (blank : byte ∈ blanks) :
 TargetAndVersion (word ++ byte :: rest) ↔ Target word ∧
  SameLetters (rest.dropWhile fun byte => byte ∈ blanks)
   (ascii ['H', 'T', 'T', 'P', '/', '1', '.', '1']) := by
 constructor
 · rintro ⟨target, gap, version, same, valid, gapBlank, http⟩
   obtain ⟨first, others, rfl, isBlank, othersBlank⟩ := exists_blank gapBlank
   simp only [append_assoc, cons_append] at same
   obtain ⟨rfl, rfl⟩ := word_unique same notBlank valid.2 blank isBlank
   refine ⟨valid.1, ?_⟩
   have some : version ≠ [] := by
    rintro rfl
    exact absurd http.length_eq (by decide)
   have versionWord : (version ++ []).dropWhile (fun byte => byte ∈ blanks) = version ++ [] :=
    dropWhile_word (version_not_blank http) some
   rw [append_nil] at versionWord
   rw [dropWhile_gap othersBlank, versionWord]
   exact http
 · rintro ⟨valid, http⟩
   refine ⟨word, byte :: rest.takeWhile (fun byte => byte ∈ blanks), _, ?_, ⟨valid, notBlank⟩,
    ⟨cons_ne_nil _ _, ?_⟩, http⟩
   · simp
   · intro other member
     rcases mem_cons.mp member with here | there
     · rw [here]
       exact blank
     · exact takeWhile_blank other there

/-! ### Lines -/

inductive NextLine where
 | line (text rest : List UInt8)
 | bad
 | unfinished

def endOfLine : List UInt8 → NextLine
 | [] => .unfinished
 | next :: rest => if next = lf then .line [] rest else .bad

def nextLine : List UInt8 → NextLine
 | [] => .unfinished
 | byte :: rest =>
  if byte = cr then endOfLine rest
  else if byte = lf then .bad
  else
   match nextLine rest with
   | .line text rest => .line (byte :: text) rest
   | .bad => .bad
   | .unfinished => .unfinished

def Clean (text : List UInt8) : Prop := ∀ byte ∈ text, byte ≠ cr ∧ byte ≠ lf

theorem nextLine_cons (plain : byte ≠ cr ∧ byte ≠ lf) : nextLine (byte :: rest) =
 match nextLine rest with
 | .line text rest => .line (byte :: text) rest
 | .bad => .bad
 | .unfinished => .unfinished := by
 rw [nextLine, if_neg plain.1, if_neg plain.2]

theorem nextLine_line (clean : Clean text) :
 nextLine (text ++ cr :: lf :: rest) = .line text rest := by
 induction text with
 | nil => rfl
 | cons byte text ih =>
  rw [cons_append, nextLine_cons (clean byte mem_cons_self),
   ih fun byte member => clean byte (mem_cons_of_mem _ member)]

theorem nextLine_clean (clean : Clean text) (stop : List UInt8) :
 nextLine (text ++ stop) = match nextLine stop with
  | .line more rest => .line (text ++ more) rest
  | .bad => .bad
  | .unfinished => .unfinished := by
 induction text with
 | nil =>
  grind
 | cons byte text ih =>
  rw [cons_append, nextLine_cons (clean byte mem_cons_self),
   ih fun byte member => clean byte (mem_cons_of_mem _ member)]
  cases nextLine stop <;> rfl

def Unfinished (text : List UInt8) : Prop :=
 ∃ line, Clean line ∧ (text = line ∨ text = line ++ [cr])

theorem nextLine_cases (bytes : List UInt8) :
 (∃ text rest, nextLine bytes = .line text rest ∧ bytes = text ++ cr :: lf :: rest ∧
  Clean text) ∨ nextLine bytes = .bad ∨ nextLine bytes = .unfinished ∧ Unfinished bytes := by
 induction bytes with
 | nil => exact .inr (.inr ⟨rfl, [], fun _ none => absurd none not_mem_nil, .inl rfl⟩)
 | cons byte rest ih =>
  by_cases isCr : byte = cr
  · subst isCr
    cases rest with
    | nil =>
     exact .inr (.inr ⟨rfl, [], fun _ none => absurd none not_mem_nil, .inr rfl⟩)
    | cons next rest =>
     by_cases isLf : next = lf
     · subst isLf
       exact .inl ⟨[], rest, rfl, rfl, fun _ none => absurd none not_mem_nil⟩
     · refine .inr (.inl ?_)
       rw [nextLine, if_pos rfl]
       exact if_neg isLf
  · by_cases isLf : byte = lf
    · subst isLf
      exact .inr (.inl rfl)
    · have plain : byte ≠ cr ∧ byte ≠ lf := ⟨isCr, isLf⟩
      have clean {text : List UInt8} (cleanText : Clean text) : Clean (byte :: text) := by
       intro other member
       rcases mem_cons.mp member with here | there
       · rw [here]
         exact plain
       · exact cleanText other there
      rw [nextLine_cons plain]
      rcases ih with ⟨text, more, found, same, cleanText⟩ | found |
       ⟨found, line, cleanLine, same⟩
      · rw [found]
        exact .inl ⟨byte :: text, more, rfl, by rw [same, cons_append], clean cleanText⟩
      · rw [found]
        exact .inr (.inl rfl)
      · rw [found]
        refine .inr (.inr ⟨rfl, byte :: line, clean cleanLine, ?_⟩)
        rcases same with same | same
        · exact .inl (by rw [same])
        · exact .inr (by rw [same, cons_append])

theorem nextLine_unfinished (unfinished : Unfinished bytes) : nextLine bytes = .unfinished := by
 obtain ⟨line, clean, same | same⟩ := unfinished
 · rw [same, ← append_nil line, nextLine_clean clean]
   rfl
 · rw [same, nextLine_clean clean]
   rfl

theorem nextLine_append_line (found : nextLine bytes = .line text rest) (more : List UInt8) :
 nextLine (bytes ++ more) = .line text (rest ++ more) := by
 rcases nextLine_cases bytes with ⟨other, others, same, rfl, clean⟩ | same | ⟨same, -⟩
 · cases same.symm.trans found
   rw [append_assoc, cons_append, cons_append]
   exact nextLine_line clean
 · cases same.symm.trans found
 · cases same.symm.trans found

end MyNotes.Network.HttpRequest
