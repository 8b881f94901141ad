/-
What the lines of a connection come to: the code of the parser, its state, and where the next
line starts.

Bytes that come later do not change a code that is final, and a reader that was waiting goes on
where it was.
-/

import MyNotes.Network.HttpGrammar

namespace MyNotes.Network.HttpRequest

open Library.CString List

variable {text rest more bytes : List UInt8} {check last : CheckState} {start final : ℕ}
 {code : HttpCode}

def str (text : List UInt8) : List UInt8 := text.takeWhile fun byte => byte ≠ 0

/-- The lines of `bytes`, of which the first starts at `start`, come to a code. -/
inductive Content : CheckState → ℕ → List UInt8 → HttpCode → CheckState → ℕ → Prop
 | waits {check : CheckState} {start : ℕ} {bytes : List UInt8}
  (found : nextLine bytes = .unfinished) :
  Content check start bytes .noRequest check start
 | bad {check : CheckState} {start : ℕ} {bytes : List UInt8} (found : nextLine bytes = .bad) :
  Content check start bytes .badRequest check start
 | request {start final : ℕ} {bytes text rest : List UInt8} {code : HttpCode} {last : CheckState}
  (found : nextLine bytes = .line text rest) (valid : RequestLine (str text))
  (later : Content .header (start + text.length + 2) rest code last final) :
  Content .requestLine start bytes code last final
 | notRequest {start : ℕ} {bytes text rest : List UInt8}
  (found : nextLine bytes = .line text rest) (invalid : ¬ RequestLine (str text)) :
  Content .requestLine start bytes .badRequest .requestLine (start + text.length + 2)
 | header {start final : ℕ} {bytes text rest : List UInt8} {code : HttpCode} {last : CheckState}
  (found : nextLine bytes = .line text rest) (some : str text ≠ [])
  (later : Content .header (start + text.length + 2) rest code last final) :
  Content .header start bytes code last final
 | done {start : ℕ} {bytes text rest : List UInt8} (found : nextLine bytes = .line text rest)
  (empty : str text = []) :
  Content .header start bytes .getRequest .header (start + text.length + 2)

theorem Content.unique (content : Content check start bytes code last final)
 {otherCode : HttpCode} {otherLast : CheckState} {otherFinal : ℕ}
 (other : Content check start bytes otherCode otherLast otherFinal) :
 code = otherCode ∧ last = otherLast ∧ final = otherFinal := by
 induction content with
 | waits found =>
  cases other with
  | waits => exact ⟨rfl, rfl, rfl⟩
  | bad also | request also | notRequest also | header also | done also =>
   cases found.symm.trans also
 | bad found =>
  cases other with
  | bad => exact ⟨rfl, rfl, rfl⟩
  | waits also | request also | notRequest also | header also | done also =>
   cases found.symm.trans also
 | request found valid _ ih =>
  cases other with
  | request also _ later =>
   simp_all
  | notRequest also invalid =>
   simp_all
  | waits also | bad also => cases found.symm.trans also
 | notRequest found invalid =>
  cases other with
  | notRequest also =>
   simp_all
  | request also valid =>
   simp_all
  | waits also | bad also => cases found.symm.trans also
 | header found some _ ih =>
  cases other with
  | header also _ later =>
   simp_all
  | done also empty =>
   simp_all
  | waits also | bad also => cases found.symm.trans also
 | done found empty =>
  cases other with
  | done also =>
   simp_all
  | header also some =>
   simp_all
  | waits also | bad also => cases found.symm.trans also

theorem line_length (found : nextLine bytes = .line text rest) :
 bytes = text ++ cr :: lf :: rest ∧ Clean text := by
 rcases nextLine_cases bytes with ⟨other, others, same, whole, clean⟩ | same | ⟨same, -⟩
 · simp_all
 · cases same.symm.trans found
 · cases same.symm.trans found

theorem drop_line (found : nextLine bytes = .line text rest)
 (later : start + text.length + 2 ≤ final) :
 bytes.drop (final - start) = rest.drop (final - (start + text.length + 2)) := by
 have distance : final - start = text.length + (2 + (final - (start + text.length + 2))) := by
  omega
 rw [(line_length found).1, distance, ← drop_drop, drop_left, ← drop_drop]
 rfl

theorem Content.within (content : Content check start bytes code last final) :
 start ≤ final ∧ final ≤ start + bytes.length := by
 induction content with
 | waits | bad => exact ⟨Nat.le_refl _, Nat.le_add_right _ _⟩
 | request found _ _ ih | header found _ _ ih =>
  have length := congrArg List.length (line_length found).1
  grind
 | notRequest found | done found =>
  have length := congrArg List.length (line_length found).1
  grind

theorem Content.resume (content : Content check start bytes .noRequest last final)
 {others : List UInt8} {otherCode : HttpCode} {otherLast : CheckState} {otherFinal : ℕ}
 (later : Content last final (bytes.drop (final - start) ++ others) otherCode otherLast
  otherFinal) :
 Content check start (bytes ++ others) otherCode otherLast otherFinal := by
 generalize same : HttpCode.noRequest = code at content
 induction content with
 | waits found =>
  simp_all
 | bad | notRequest | done => cases same
 | request found valid content ih =>
  rw [drop_line found content.within.1] at later
  exact .request (nextLine_append_line found others) valid (ih later same)
 | header found some content ih =>
  rw [drop_line found content.within.1] at later
  exact .header (nextLine_append_line found others) some (ih later same)

/-! ### Requests -/

def crlf : List UInt8 := [cr, lf]

def ended (lines : List (List UInt8)) : List UInt8 := lines.flatMap fun line => line ++ crlf

def ValidHeaders (headers : List (List UInt8)) : Prop := ∀ line ∈ headers, line ≠ [] ∧ Clean line

def Form (bytes : List UInt8) : Prop :=
 ∃ line headers, bytes = line ++ crlf ++ ended headers ++ crlf ∧
  (RequestLine line ∧ Clean line) ∧ ValidHeaders headers

def Waiting (bytes : List UInt8) : Prop :=
 Unfinished bytes ∨ ∃ line headers rest, bytes = line ++ crlf ++ ended headers ++ rest ∧
  (RequestLine line ∧ Clean line) ∧ ValidHeaders headers ∧ Unfinished rest

def NulFree (bytes : List UInt8) : Prop := ∀ byte ∈ bytes, byte ≠ 0

instance (bytes : List UInt8) : Decidable (NulFree bytes) := List.decidableBAll _ bytes

theorem str_of_nulFree (nulFree : NulFree text) : str text = text :=
 takeWhile_eq_self_iff.mpr fun byte member => decide_eq_true (nulFree byte member)

theorem NulFree.left (nulFree : NulFree (text ++ rest)) : NulFree text :=
 fun byte member => nulFree byte (mem_append_left rest member)

theorem NulFree.right (nulFree : NulFree (text ++ rest)) : NulFree rest :=
 fun byte member => nulFree byte (mem_append_right text member)

theorem NulFree.line (nulFree : NulFree bytes) (found : nextLine bytes = .line text rest) :
 str text = text ∧ NulFree rest := by
 rw [(line_length found).1] at nulFree
 exact ⟨str_of_nulFree nulFree.left, fun byte member => nulFree byte
  (mem_append_right text (mem_cons_of_mem _ (mem_cons_of_mem _ member)))⟩

theorem nextLine_crlf (clean : Clean text) : nextLine (text ++ crlf ++ rest) = .line text rest := by
 rw [append_assoc]
 exact nextLine_line clean

theorem ended_cons (line : List UInt8) (lines : List (List UInt8)) :
 ended (line :: lines) = line ++ crlf ++ ended lines :=
 flatMap_cons

variable {headers : List (List UInt8)}

theorem content_headers (valid : ValidHeaders headers) (nulFree : NulFree (ended headers))
 (later : Content .header (start + (ended headers).length) rest code last final) :
 Content .header start (ended headers ++ rest) code last final := by
 induction headers generalizing start with
 | nil => exact later
 | cons line headers ih =>
  obtain ⟨some, clean⟩ := valid line mem_cons_self
  rw [ended_cons] at nulFree later ⊢
  rw [append_assoc]
  have same := str_of_nulFree nulFree.left.left
  refine .header (nextLine_crlf clean) (by rw [same]; exact some) ?_
  have others : ValidHeaders headers :=
   fun other member => valid other (mem_cons_of_mem line member)
  refine ih others nulFree.right ?_
  have length : start + (line ++ crlf ++ ended headers).length =
   start + line.length + 2 + (ended headers).length := by
   simp only [length_append, crlf, length_cons, length_nil]
   omega
  rw [← length]
  exact later

theorem content_request {line : List UInt8} (request : RequestLine line ∧ Clean line)
 (valid : ValidHeaders headers) (nulFree : NulFree (line ++ crlf ++ ended headers))
 (later : Content .header (start + line.length + 2 + (ended headers).length) rest code last
  final) :
 Content .requestLine start (line ++ crlf ++ ended headers ++ rest) code last final := by
 rw [append_assoc]
 have same := str_of_nulFree nulFree.left.left
 exact .request (nextLine_crlf request.2) (by rw [same]; exact request.1)
  (content_headers valid nulFree.right later)

theorem content_of_form (form : Form bytes) (nulFree : NulFree bytes) :
 ∃ last final, Content .requestLine start (bytes ++ rest) .getRequest last final := by
 obtain ⟨line, headers, rfl, request, valid⟩ := form
 have clean : Clean [] := fun _ none => absurd none not_mem_nil
 have found : nextLine (crlf ++ rest) = .line [] rest := nextLine_crlf clean
 rw [append_assoc _ crlf rest]
 exact ⟨_, _, content_request request valid nulFree.left (.done found rfl)⟩

theorem content_of_waiting (waiting : Waiting bytes) (nulFree : NulFree bytes) :
 ∃ last final, Content .requestLine start bytes .noRequest last final := by
 rcases waiting with unfinished | ⟨line, headers, rest, rfl, request, valid, unfinished⟩
 · exact ⟨_, _, .waits (nextLine_unfinished unfinished)⟩
 · exact ⟨_, _, content_request request valid nulFree.left
    (.waits (nextLine_unfinished unfinished))⟩

theorem unfinished_of_nextLine (found : nextLine bytes = .unfinished) : Unfinished bytes := by
 rcases nextLine_cases bytes with ⟨text, rest, same, -⟩ | same | ⟨-, unfinished⟩
 · cases same.symm.trans found
 · cases same.symm.trans found
 · exact unfinished

theorem valid_cons (some : text ≠ []) (clean : Clean text) (valid : ValidHeaders headers) :
 ValidHeaders (text :: headers) := by
 intro line member
 rcases mem_cons.mp member with here | there
 · rw [here]
   exact ⟨some, clean⟩
 · exact valid line there

theorem headers_of_content (content : Content .header start bytes code last final)
 (nulFree : NulFree bytes) : ∃ headers rest, ValidHeaders headers ∧
  ((code = .getRequest ∧ bytes = ended headers ++ (crlf ++ rest)) ∨
   (code = .noRequest ∧ bytes = ended headers ++ rest ∧ Unfinished rest) ∨
   code = .badRequest) := by
 generalize same : CheckState.header = check at content
 induction content with
 | @waits _ _ bytes found =>
  exact ⟨[], bytes, fun _ none => absurd none not_mem_nil,
   .inr (.inl ⟨rfl, rfl, unfinished_of_nextLine found⟩)⟩
 | bad => exact ⟨[], [], fun _ none => absurd none not_mem_nil, .inr (.inr rfl)⟩
 | request | notRequest => cases same
 | @header _ _ bytes text rest _ _ found some _ ih =>
  obtain ⟨sameText, restNulFree⟩ := nulFree.line found
  obtain ⟨whole, clean⟩ := line_length found
  obtain ⟨headers, others, valid, result⟩ := ih restNulFree rfl
  refine ⟨text :: headers, others, valid_cons (sameText ▸ some) clean valid, ?_⟩
  rw [ended_cons, whole]
  rcases result with ⟨get, same⟩ | ⟨no, same, unfinished⟩ | bad
  · exact .inl ⟨get, by rw [same]; simp [crlf]⟩
  · exact .inr (.inl ⟨no, by rw [same]; simp [crlf], unfinished⟩)
  · exact .inr (.inr bad)
 | @done _ bytes text rest found empty =>
  obtain ⟨sameText, -⟩ := nulFree.line found
  refine ⟨[], rest, fun _ none => absurd none not_mem_nil, .inl ⟨rfl, ?_⟩⟩
  rw [(line_length found).1, ← sameText, empty]
  rfl

theorem request_of_content (content : Content .requestLine start bytes code last final)
 (nulFree : NulFree bytes) :
 (code = .getRequest ∧ ∃ form rest, Form form ∧ bytes = form ++ rest) ∨
  (code = .noRequest ∧ Waiting bytes) ∨ code = .badRequest := by
 cases content with
 | waits found => exact .inr (.inl ⟨rfl, .inl (unfinished_of_nextLine found)⟩)
 | bad => exact .inr (.inr rfl)
 | notRequest => exact .inr (.inr rfl)
 | @request _ _ _ text rest _ _ found valid later =>
  obtain ⟨sameText, restNulFree⟩ := nulFree.line found
  obtain ⟨whole, clean⟩ := line_length found
  have request : RequestLine text ∧ Clean text := ⟨sameText ▸ valid, clean⟩
  obtain ⟨headers, others, headersValid, result⟩ := headers_of_content later restNulFree
  rcases result with ⟨get, same⟩ | ⟨no, same, unfinished⟩ | bad
  · refine .inl ⟨get, _, others, ⟨text, headers, rfl, request, headersValid⟩, ?_⟩
    rw [whole, same]
    simp [crlf]
  · refine .inr (.inl ⟨no, .inr ⟨text, headers, others, ?_, request, headersValid,
     unfinished⟩⟩)
    rw [whole, same]
    simp [crlf]
  · exact .inr (.inr bad)

theorem unfinished_of_append {line : List UInt8} (clean : Clean line) (some : more ≠ [])
 (same : bytes ++ more = line ++ crlf) : Unfinished bytes := by
 rcases append_eq_append_iff.mp same with ⟨others, rfl, -⟩ | ⟨others, rfl, ends⟩
 · exact ⟨bytes, fun byte member => clean byte (mem_append_left _ member), .inl rfl⟩
 · refine ⟨line, clean, ?_⟩
   cases others with
   | nil => exact .inl (append_nil line)
   | cons first others =>
    obtain ⟨rfl, tail⟩ := List.cons.inj ends
    cases others with
    | nil => exact .inr rfl
    | cons second others =>
     simp_all

theorem ended_cut {lines : List (List UInt8)} (clean : ∀ line ∈ lines, Clean line)
 (some : more ≠ []) (same : bytes ++ more = ended lines) :
 ∃ before line after unfinished, lines = before ++ line :: after ∧
  bytes = ended before ++ unfinished ∧ Unfinished unfinished := by
 induction lines generalizing bytes with
 | nil => exact absurd (append_eq_nil_iff.mp same).2 some
 | cons line lines ih =>
  have lineClean := clean line mem_cons_self
  rw [ended_cons] at same
  rcases append_eq_append_iff.mp same with ⟨others, within, rfl⟩ | ⟨others, rfl, later⟩
  · by_cases whole : others = []
    · subst whole
      rw [append_nil] at within
      cases lines with
      | nil => exact absurd rfl some
      | cons next lines =>
       refine ⟨[line], next, lines, [], rfl, ?_, [], ?_, .inl rfl⟩
       · rw [← within]
         simp [ended]
       · exact fun _ none => absurd none not_mem_nil
    · exact ⟨[], line, lines, bytes, rfl, rfl, unfinished_of_append lineClean whole within.symm⟩
  · obtain ⟨before, next, after, unfinished, rfl, rfl, isUnfinished⟩ :=
     ih (fun other member => clean other (mem_cons_of_mem line member)) later.symm
    refine ⟨line :: before, next, after, unfinished, rfl, ?_, isUnfinished⟩
    rw [ended_cons, append_assoc _ (ended before)]

theorem waiting_of_form (some : more ≠ []) (form : Form (bytes ++ more)) : Waiting bytes := by
 obtain ⟨line, headers, same, request, valid⟩ := form
 have whole : bytes ++ more = ended (line :: (headers ++ [[]])) := by
  rw [same]
  simp [ended]
 have empty : Clean [] := fun _ none => absurd none not_mem_nil
 have clean : ∀ other ∈ line :: (headers ++ [[]]), Clean other := by
  intro other member
  rcases mem_cons.mp member with first | later
  · rw [first]
    exact request.2
  · rcases mem_append.mp later with inHeaders | last
    · exact (valid other inHeaders).2
    · simp_all
 obtain ⟨before, next, after, unfinished, lines, rfl, isUnfinished⟩ := ended_cut clean some whole
 cases before with
 | nil => exact .inl isUnfinished
 | cons first before =>
  obtain ⟨rfl, others⟩ := List.cons.inj lines
  refine .inr ⟨line, before, unfinished, ?_, request, ?_, isUnfinished⟩
  · rw [ended_cons]
  · -- the line that is cut is a header or the empty line, so those before it are headers
    have inHeaders : before <+: headers := by
     rcases append_eq_append_iff.mp others with ⟨between, rfl, last⟩ | ⟨between, same, -⟩
     · cases between with
       | nil => simp
       | cons head between =>
        have none := (List.cons.inj last).2
        simp_all
     · exact ⟨between, same.symm⟩
    exact fun other member => valid other (inHeaders.subset member)

end MyNotes.Network.HttpRequest
