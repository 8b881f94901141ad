/-
`index0` of the algorithm notes, with the improved table of `getnext0`.

The table is an array of 50 on the stack.  Writing outside it is a fault, and so is reading an entry
that has not been written.  The comparison with the sizes makes the state -1 unsigned, so the loop
ends there and what it has not found counts as found.
-/

import MyNotes.Algorithms.Kmp

namespace MyNotes.Algorithms.KmpIndex0

open Library.Border Library.CheckedArray Library.CheckedInt Kmp List Option Nat Int

variable {α : Type*} [DecidableEq α]

def loadEntry (nextval : List (Option ℤ)) (index : ℤ) : Option ℤ := (load nextval index).join

/-- `k == -1 || t[i] == t[k]`, with the string that is compared and that of the pattern. -/
def agrees (s t : List α) (i : ℕ) (k : ℤ) : Option Bool :=
 if k = -1 then some true else s[i]?.bind fun c => (load t k).map fun here => decide (c = here)

/-- What goes to `nextval[i]`. -/
def improvedEntry (t : List α) (nextval : List (Option ℤ)) (i : ℕ) (k : ℤ) : Option ℤ :=
 t[i]?.bind fun c => (load t k).bind fun here => if c ≠ here then some k else loadEntry nextval k

/-- The loop of `getnext0`, at most so many rounds.  The pattern is not empty. -/
def getnextLoop (t : List α) : ℕ → ℕ → ℤ → List (Option ℤ) → Option (List (Option ℤ))
 | 0, _, _, _ => none
 | rounds + 1, i, k, nextval =>
  if i < t.length - 1 then
   (agrees t t i k).bind fun same =>
    if same then
     (checkedNat (i + 1)).bind fun i =>
      (improvedEntry t nextval i (k + 1)).bind fun entry =>
       (store nextval i (some entry)).bind fun nextval =>
        getnextLoop t rounds i (k + 1) nextval
    else (loadEntry nextval k).bind fun k => getnextLoop t rounds i k nextval
  else some nextval

def getnext0 (t : List α) (nextval : List (Option ℤ)) : Option (List (Option ℤ)) :=
 (store nextval 0 (some (-1))).bind fun nextval => getnextLoop t (2 * t.length) 0 (-1) nextval

/-- An `int` that is made a `size_t`. -/
def unsigned (value : ℤ) : ℤ := value % 18446744073709551616

/-- The loop of `index0`, at most so many rounds; it ends with `i` and `j`. -/
def index0Loop (s t : List α) (next : List (Option ℤ)) : ℕ → ℕ → ℤ → Option (ℕ × ℤ)
 | 0, _, _ => none
 | rounds + 1, i, j =>
  if i < s.length ∧ unsigned j < t.length then
   (agrees s t i j).bind fun same =>
    if same then (checkedNat (i + 1)).bind fun i => index0Loop s t next rounds i (j + 1)
    else (loadEntry next j).bind fun j => index0Loop s t next rounds i j
  else some (i, j)

/-- `if (j >= t.size()) return i - j; else return -1;`. -/
def conclude (t : List α) (final : ℕ × ℤ) : Option ℤ :=
 if unsigned final.2 ≥ t.length then checked (final.1 - final.2) else some (-1)

def index0 (s t : List α) (pos : ℕ) : Option ℤ :=
 (getnext0 t (List.replicate 50 none)).bind fun next =>
  (index0Loop s t next (2 * s.length + 2) (pos - 1) 0).bind (conclude t)

/-! ### When the answer is right -/

/-- No prefix of the pattern, from one character on, ends at this place after the start. -/
def NoneEndsAt (s t : List α) (start i : ℕ) : Prop :=
 ∀ count ≤ t.length, 0 < count → ¬t.take count <:+ (s.take (i + 1)).drop start

/-- The search gets to the place: no occurrence has ended, and a prefix has ended at every place
passed. -/
structure Reaches (s t : List α) (start i : ℕ) : Prop where
 none_ended : ∀ q ≥ start, t <+: s.drop q → i < q + t.length
 passed : ∀ earlier ≥ start, earlier < i → ¬NoneEndsAt s t start earlier

/-- The pattern fits the table.  At a place that the search gets to and where no prefix ends, an
occurrence follows.  The search does not go beyond the largest `int`. -/
structure Answerable (s t : List α) (start : ℕ) : Prop where
 fits : t.length ≤ 50
 follows : ∀ i ≥ start, i < s.length → Reaches s t start i → NoneEndsAt s t start i →
  t <+: s.drop (i + 1)
 stops : intMax < s.length → ¬Reaches s t start intMax.toNat

/-! ### The improved table -/

/-- The entries before that place.  Such an entry is one less than a bound for the prefixes that
could go on where it is used. -/
def IsImproved (t : List α) (nextval : List (Option ℤ)) (count : ℕ) : Prop :=
 ∀ i < count, ∃ bound ≤ i, nextval[i]? = some (some ((bound : ℤ) - 1)) ∧ FallsBelow t i bound ∧
  ∀ b, bound = b + 1 → Ends t (t.take i) b

variable {s t seen : List α} {nextval : List (Option ℤ)} {c : α}
 {limit rounds rest start i k bound : ℕ}

theorem loadEntry_eq {entry : ℤ} (here : nextval[i]? = some (some entry)) :
 loadEntry nextval i = some entry := by
 rw [loadEntry, load_natCast, here, join_some]

theorem agrees_start (s t : List α) (i : ℕ) : agrees s t i (-1) = some true := rfl

theorem agrees_eq (inside : s[i]? = some c) (short : k < t.length) :
 agrees s t i k = some (decide (t[k]? = some c)) := by
 have not_start : (k : ℤ) ≠ -1 := by omega
 rw [agrees, if_neg not_start, inside, bind_some, load_natCast,
  getElem?_eq_getElem short, map_some]
 refine congrArg some (decide_eq_decide.mpr ?_)
 rw [some.injEq, eq_comm]

theorem improvedEntry_eq (longest : Longest t (t.take (i + 1)) i k) (inside : i + 1 < t.length)
 (table : IsImproved t nextval (i + 1)) :
 ∃ bound ≤ i + 1, improvedEntry t nextval (i + 1) k = some ((bound : ℤ) - 1) ∧
  FallsBelow t (i + 1) bound ∧ ∀ b, bound = b + 1 → Ends t (t.take (i + 1)) b := by
 have within := longest.within
 have short : k < t.length := by omega
 rw [improvedEntry, getElem?_eq_getElem inside, bind_some, load_natCast,
  getElem?_eq_getElem short, bind_some]
 by_cases same : t[i + 1] = t[k]
 · obtain ⟨bound, less, here, falls, ends⟩ := table k (lt_succ_of_le within)
   rw [if_neg (not_not.mpr same), loadEntry_eq here]
   refine ⟨bound, by omega, rfl, fun other before other_ends differs => ?_, fun b equal => ?_⟩
   · have at_most := longest.longest other (le_of_lt_succ before) other_ends
     have apart : t[other]? ≠ t[k]? := by
      rwa [getElem?_eq_getElem short, ← same, ← getElem?_eq_getElem inside]
     have shorter : other < k := lt_of_le_of_ne at_most fun equal => apart (by rw [equal])
     exact falls other shorter ((longest.ends.shorter_iff at_most).mp other_ends) apart
   · exact (longest.ends.shorter_iff (by omega)).mpr (ends b equal)
 · rw [if_pos same]
   refine ⟨k + 1, succ_le_succ within, ?_, longest.fallsBelow le_rfl, fun b equal => ?_⟩
   · rw [Int.natCast_succ, Int.add_sub_cancel]
   · exact succ.inj equal ▸ longest.ends

omit [DecidableEq α] in
theorem IsImproved.store {entry : ℕ} (table : IsImproved t nextval i) (inside : i < nextval.length)
 (less : entry ≤ i) (falls : FallsBelow t i entry)
 (ends : ∀ b, entry = b + 1 → Ends t (t.take i) b) :
 IsImproved t (nextval.set i (some ((entry : ℤ) - 1))) (i + 1) := by
 intro index within
 rcases Nat.lt_succ_iff_lt_or_eq.mp within with earlier | rfl
 · obtain ⟨bound, known, here, rest⟩ := table index earlier
   exact ⟨bound, known, (getElem?_set_ne earlier.ne').trans here, rest⟩
 · exact ⟨entry, less, getElem?_set_self inside, falls, ends⟩

theorem improvedEntry_store {γ : Type*} (longest : Longest t (t.take (i + 1)) i k)
 (inside : i + 1 < t.length) (table : IsImproved t nextval (i + 1))
 (sizes : nextval.length = 50) (before : i < 50) (go : ℕ → List (Option ℤ) → Option γ) :
 ((50 ≤ i + 1 ∧ ((checkedNat (i + 1)).bind fun i =>
  (improvedEntry t nextval i k).bind fun entry =>
   (store nextval i (some entry)).bind (go i)) = none) ∨
  ∃ nextval', i + 1 < 50 ∧ IsImproved t nextval' (i + 2) ∧ nextval'.length = 50 ∧
   ((checkedNat (i + 1)).bind fun i =>
    (improvedEntry t nextval i k).bind fun entry =>
     (store nextval i (some entry)).bind (go i)) = go (i + 1) nextval') := by
 obtain ⟨entry, less, found, falls, ends⟩ := improvedEntry_eq longest inside table
 rw [checkedNat_eq (by rw [intMax]; omega), bind_some, found, bind_some]
 by_cases room : i + 1 < 50
 · have stored : i + 1 < nextval.length := sizes ▸ room
   refine .inr ⟨_, room, table.store stored less falls ends, length_set.trans sizes, ?_⟩
   rw [store_eq stored, bind_some]
 · refine .inl ⟨not_lt.mp room, ?_⟩
   rw [store, if_neg (by omega), bind_none]

/-- The whole table is made where the array has room for it, and else the writing fails. -/
def Completes (t : List α) (result : Option (List (Option ℤ))) : Prop :=
 (t.length ≤ 50 → ∃ next, result = some next ∧ IsImproved t next t.length) ∧
  (50 < t.length → result = none)

theorem getnextLoop_eq (table : IsImproved t nextval (i + 2)) (sizes : nextval.length = 50)
 (before : i + 1 < 50) (inside : i + 1 < t.length)
 (continued : ContinuedBelow t (t.take (i + 1)) i t[i + 1] bound)
 (ends : ∀ b, bound = b + 1 → b ≤ i ∧ Ends t (t.take (i + 1)) b)
 (enough : 2 * (t.length - (i + 2)) + bound < rounds) :
 Completes t (getnextLoop t rounds (i + 1) ((bound : ℤ) - 1) nextval) := by
 induction rounds generalizing i bound nextval with
 | zero => cases enough
 | succ rounds ih =>
  rw [getnextLoop]
  by_cases more : i + 1 < t.length - 1
  · have at_next : i + 1 + 1 < t.length := by omega
    -- the next place, with the longest prefix that ends before it
    have forward : ∀ k : ℕ, Longest t (t.take (i + 1) ++ [t[i + 1]]) (i + 1) k → k ≤ bound →
     Completes t ((checkedNat (i + 1 + 1)).bind fun i =>
      (improvedEntry t nextval i k).bind fun entry =>
       (store nextval i (some entry)).bind fun nextval =>
        getnextLoop t rounds i k nextval) := by
     intro k longest at_most
     rw [← take_succ_eq_append_getElem inside] at longest
     rcases improvedEntry_store longest at_next table sizes before
      fun i nextval => getnextLoop t rounds i k nextval with
      ⟨full, failed⟩ | ⟨nextval', room, table', sizes', same⟩
     · exact ⟨fun fits => absurd at_next (by omega), fun _ => failed⟩
     · rw [same]
       have bounds := longest.within
       have as_bound : (k : ℤ) = ((k + 1 : ℕ) : ℤ) - 1 := by omega
       rw [as_bound]
       refine ih table' sizes' room at_next (longest.continuedBelow _) (fun b equal => ?_)
        (by omega)
       obtain rfl := succ.inj equal
       exact ⟨bounds, longest.ends⟩
    rw [if_pos more]
    cases bound with
    | zero =>
     have as_start : ((0 : ℕ) : ℤ) - 1 = -1 := rfl
     rw [as_start, agrees_start, bind_some, if_pos rfl]
     exact forward 0 continued.restart le_rfl
    | succ b =>
     obtain ⟨within, ends_here⟩ := ends b rfl
     have short : b < t.length := by omega
     have as_index : ((b + 1 : ℕ) : ℤ) - 1 = b := by omega
     rw [as_index, agrees_eq (getElem?_eq_getElem inside) short, bind_some]
     by_cases same : t[b]? = some t[i + 1]
     · rw [if_pos (decide_eq_true same)]
       exact forward (b + 1) (continued.extend ends_here within same) le_rfl
     · obtain ⟨shorter, less, here, falls, ends_shorter⟩ := table b (by omega)
       rw [decide_eq_false same, if_neg Bool.false_ne_true, loadEntry_eq here,
        bind_some]
       refine ih table sizes before inside (continued.fall ends_here same falls)
        (fun b' equal => ⟨by omega, ?_⟩) (by omega)
       exact (ends_here.shorter_iff (by omega)).mpr (ends_shorter b' equal)
  · rw [if_neg more]
    have last : i + 2 = t.length := by omega
    exact ⟨fun _ => ⟨nextval, rfl, last ▸ table⟩, fun long => absurd before (by omega)⟩

theorem getnext0_eq (nonempty : t ≠ []) : Completes t (getnext0 t (replicate 50 none)) := by
 have positive : 0 < t.length := length_pos_of_ne_nil nonempty
 have table : IsImproved t ((replicate 50 none).set 0 (some (-1))) 1 := by
  intro i first
  obtain rfl := lt_one_iff.mp first
  exact ⟨0, le_rfl, rfl, fun _ before => absurd before (not_lt_zero _), nofun⟩
 have stored : store (replicate 50 (none : Option ℤ)) 0 (some (-1)) =
  some ((replicate 50 none).set 0 (some (-1))) := rfl
 obtain ⟨rounds, enough⟩ : ∃ rounds, 2 * t.length = rounds + 1 := ⟨2 * t.length - 1, by omega⟩
 rw [getnext0, stored, bind_some, enough, getnextLoop]
 by_cases single : t.length = 1
 · rw [if_neg (by omega)]
   exact ⟨fun _ => ⟨_, rfl, single ▸ table⟩, fun long => absurd long (by omega)⟩
 · have inside : 0 + 1 < t.length := by omega
   have first := longest_first t (t.take (0 + 1))
   rw [if_pos (by omega), agrees_start, bind_some, if_pos rfl]
   rcases improvedEntry_store first inside table (length_set.trans length_replicate)
    (by decide) fun i nextval => getnextLoop t rounds i 0 nextval with
    ⟨full, -⟩ | ⟨nextval, room, table', sizes, same⟩
   · exact absurd full (by decide)
   · refine (congrArg (Completes t) same).mpr ?_
     refine getnextLoop_eq table' sizes room inside
      (show ContinuedBelow t _ _ _ 1 from first.continuedBelow _) ?_
      (by omega)
     exact fun b equal => ⟨by omega, succ.inj equal ▸ first.ends⟩

/-! ### The search -/

section

omit [DecidableEq α]

theorem seen_succ (inside : i < s.length) (from_start : start ≤ i) :
 (s.take (i + 1)).drop start = (s.take i).drop start ++ [s[i]] := by
 rw [take_succ_eq_append_getElem inside, drop_append_of_le_length]
 rw [length_take]
 omega

theorem ends_seen_iff (inside : i ≤ s.length) (from_start : start ≤ i) :
 Ends t ((s.take i).drop start) t.length ↔
  start + t.length ≤ i ∧ t <+: s.drop (i - t.length) := by
 rw [drop_take, ends_length_iff _ (by rw [length_drop]; omega), drop_drop]
 constructor
 · rintro ⟨fits, occurs⟩
   exact ⟨by omega, by rwa [show i - t.length = start + (i - start - t.length) by omega]⟩
 · rintro ⟨fits, occurs⟩
   exact ⟨by omega, by rwa [show start + (i - start - t.length) = i - t.length by omega]⟩

theorem noneEndsAt_iff :
 NoneEndsAt s t start i ↔ Longest t ((s.take (i + 1)).drop start) t.length 0 := by
 constructor
 · refine fun none => ⟨ends_zero _ _, zero_le _, fun count within ends => ?_⟩
   by_contra positive
   exact none count within (by omega) ends.2
 · intro longest count within positive ends
   have short := longest.longest count within ⟨within, ends⟩
   omega

end

/-- How the loop ends: with an occurrence, where no prefix ends, with the string, or not at all. -/
inductive Outcome (s t : List α) (start : ℕ) (result : Option (ℕ × ℤ)) : Prop where
 | found (q : ℕ) (returned : result = some (q + t.length, (t.length : ℤ)))
  (after : start ≤ q) (occurs : t <+: s.drop q)
  (least : ∀ other ≥ start, t <+: s.drop other → q ≤ other)
  (fits : (q + t.length : ℤ) ≤ intMax)
  (passed : ∀ earlier ≥ start, earlier < q + t.length → ¬NoneEndsAt s t start earlier)
 | stopped (i : ℕ) (returned : result = some (i, -1)) (after : start ≤ i) (inside : i < s.length)
  (fits : (i : ℤ) ≤ intMax) (reaches : Reaches s t start i) (none : NoneEndsAt s t start i)
 | ended (j : ℕ) (returned : result = some (s.length, (j : ℤ))) (short : j < t.length)
  (fits : (s.length : ℤ) ≤ intMax) (reaches : Reaches s t start s.length)
 | overflow (returned : result = .none) (long : intMax < s.length)
  (reaches : Reaches s t start intMax.toNat)

theorem unsigned_natCast (fits : (k : ℤ) ≤ intMax) : unsigned k = k := by
 rw [intMax] at fits
 rw [unsigned]
 omega

omit [DecidableEq α] in
theorem Reaches.succ (reaches : Reaches s t start i) (from_start : start ≤ i)
 (inside : i < s.length) (positive : 0 < k) (shorter : k < t.length)
 (longest : Longest t ((s.take (i + 1)).drop start) t.length k) :
 Reaches s t start (i + 1) := by
 refine ⟨fun q after occurs => ?_, fun earlier after before => ?_⟩
 · have later := reaches.none_ended q after occurs
   by_contra now
   have ends : Ends t ((s.take (i + 1)).drop start) t.length := by
    refine (ends_seen_iff inside (by omega)).mpr ⟨by omega, ?_⟩
    rwa [show i + 1 - t.length = q by omega]
   have whole := longest.longest _ le_rfl ends
   omega
 · rcases Nat.lt_succ_iff_lt_or_eq.mp before with passed | rfl
   · exact reaches.passed earlier after passed
   · intro none
     exact positive.ne ((noneEndsAt_iff.mp none).unique longest)

theorem found_outcome (reaches : Reaches s t start i) (from_start : start ≤ i)
 (inside : i < s.length) (room : ((i + 1 : ℕ) : ℤ) ≤ intMax) (nonempty : 0 < t.length)
 (longest : Longest t ((s.take (i + 1)).drop start) t.length t.length) (enough : 0 < rounds) :
 Outcome s t start (index0Loop s t nextval rounds (i + 1) t.length) := by
 obtain ⟨fits, occurs⟩ := (ends_seen_iff inside (by omega)).mp longest.ends
 have compared : ¬unsigned (t.length : ℤ) < t.length := by
  rw [unsigned_natCast (by omega)]
  exact lt_irrefl _
 cases rounds with
 | zero => cases enough
 | succ rounds =>
  rw [index0Loop, if_neg fun both => compared both.2]
  refine .found (i + 1 - t.length) ?_ (by omega) occurs (fun other after occurs' => ?_)
   (by omega) fun earlier after before => ?_
  · rw [Nat.sub_add_cancel (by omega)]
  · have later := reaches.none_ended other after occurs'
    omega
  · rcases Nat.lt_succ_iff_lt_or_eq.mp (by omega : earlier < i + 1) with passed | rfl
    · exact reaches.passed earlier after passed
    · intro none
      exact nonempty.ne ((noneEndsAt_iff.mp none).unique longest)

theorem index0Loop_outcome (nonempty : 0 < t.length) (fits : t.length ≤ 50)
 (table : IsImproved t nextval t.length) (from_start : start ≤ i) (within : i ≤ s.length)
 (small : (i : ℤ) ≤ intMax) (reaches : Reaches s t start i)
 (continued : ∀ c, s[i]? = some c →
  ContinuedBelow t ((s.take i).drop start) (t.length - 1) c bound)
 (ends : ∀ b, bound = b + 1 → b < t.length ∧ Ends t ((s.take i).drop start) b)
 (last : i = s.length → 0 < bound) (enough : 2 * (s.length - i) + bound < rounds) :
 Outcome s t start (index0Loop s t nextval rounds i ((bound : ℤ) - 1)) := by
 induction rounds generalizing i bound with
 | zero => cases enough
 | succ rounds ih =>
  have limits : t.length - 1 + 1 = t.length := Nat.sub_add_cancel nonempty
  rw [index0Loop]
  by_cases inside : i < s.length
  · have here : s[i]? = some s[i] := getElem?_eq_getElem inside
    cases bound with
    | zero =>
     have large : ¬unsigned (((0 : ℕ) : ℤ) - 1) < t.length := by
      rw [unsigned]
      omega
     have none := (continued _ here).restart
     rw [limits, ← seen_succ inside from_start] at none
     rw [if_neg fun both => large both.2]
     exact .stopped i rfl from_start inside small reaches (noneEndsAt_iff.mpr none)
    | succ b =>
     obtain ⟨short, ends_here⟩ := ends b rfl
     have as_index : ((b + 1 : ℕ) : ℤ) - 1 = b := by omega
     have b_fits : (b : ℤ) ≤ intMax := by
      rw [intMax]
      omega
     have compared : unsigned (b : ℤ) < t.length := by
      rw [unsigned_natCast b_fits]
      exact Int.ofNat_lt.mpr short
     rw [as_index, if_pos ⟨inside, compared⟩, agrees_eq here short, bind_some]
     by_cases same : t[b]? = some s[i]
     · rw [if_pos (decide_eq_true same)]
       have extended := (continued _ here).extend ends_here (by omega) same
       rw [limits, ← seen_succ inside from_start] at extended
       by_cases room : ((i + 1 : ℕ) : ℤ) ≤ intMax
       · have as_bound : (b : ℤ) + 1 = ((b + 1 + 1 : ℕ) : ℤ) - 1 := by omega
         rw [checkedNat_eq room, bind_some]
         by_cases whole : b + 1 = t.length
         · have at_end : (b : ℤ) + 1 = t.length := by omega
           rw [whole] at extended
           rw [at_end]
           exact found_outcome reaches from_start inside room nonempty extended (by omega)
         · have shorter : b + 1 < t.length := by omega
           rw [as_bound]
           refine ih (by omega) inside room
            (reaches.succ from_start inside (Nat.succ_pos b) shorter extended)
            (fun c _ => ?_) (fun b' equal => ?_) (fun _ => Nat.succ_pos _) (by omega)
           · exact fun other within => extended.continuedBelow c other (by omega)
           · obtain rfl := Nat.succ.inj equal
             exact ⟨shorter, extended.ends⟩
       · have at_most : intMax.toNat = i := by
          rw [intMax] at small room ⊢
          omega
         rw [checkedNat_eq_none (Int.not_le.mp room), bind_none]
         exact .overflow rfl (by omega) (at_most ▸ reaches)
     · obtain ⟨shorter, less, entry, falls, ends_shorter⟩ := table b short
       rw [decide_eq_false same, if_neg Bool.false_ne_true, loadEntry_eq entry,
        bind_some]
       refine ih from_start within small reaches (fun c at_c => ?_) (fun b' equal => ?_)
        (fun at_end => absurd at_end inside.ne) (by omega)
       · obtain rfl := some.inj (here.symm.trans at_c)
         exact (continued _ here).fall ends_here same falls
       · exact ⟨by omega, (ends_here.shorter_iff (by omega)).mpr (ends_shorter b' equal)⟩
  · have at_end : i = s.length := by omega
    obtain ⟨b, rfl⟩ : ∃ b, bound = b + 1 := ⟨bound - 1, by omega⟩
    have as_index : ((b + 1 : ℕ) : ℤ) - 1 = b := by omega
    rw [if_neg fun both => inside both.1, as_index]
    subst at_end
    exact .ended b rfl (ends b rfl).1 small reaches

section

omit [DecidableEq α]

theorem reaches_start (s t : List α) (start : ℕ) (nonempty : 0 < t.length) :
 Reaches s t start start :=
 ⟨fun _ _ _ => by omega, fun _ after before => absurd after (not_le.mpr before)⟩

theorem ends_of_occurs {q place : ℕ} (occurs : t <+: s.drop q) (after : start ≤ q)
 (begun : q ≤ place) (inside : place ≤ q + t.length) :
 t.take (place - q) <:+ (s.take place).drop start := by
 have same : t.take (place - q) = (s.take place).drop q := by
  rw [drop_take]
  obtain ⟨rest, whole⟩ := occurs
  rw [← whole, take_append_of_le_length (by omega)]
 rw [same, show q = start + (q - start) by omega, ← drop_drop]
 exact drop_suffix _ _

theorem Outcome.first_iff {result : Option (ℕ × ℤ)} (outcome : Outcome s t start result)
 (nonempty : 0 < t.length) (fits : t.length ≤ 50) :
 (∃ answer, result.bind (conclude t) = some answer ∧ IsFirst s t start answer) ↔
  Answerable s t start := by
 have size_fits : (t.length : ℤ) ≤ intMax := by
  rw [intMax]
  omega
 cases outcome with
 | found q returned after occurs least end_fits passed =>
  have here : Fits (((q + t.length : ℕ) : ℤ) - t.length) := by
   rw [Fits, intMax]
   rw [intMax] at end_fits
   omega
  refine iff_of_true ⟨((q + t.length : ℕ) : ℤ) - t.length, ?_, .inr ⟨q, after, by omega, occurs,
   least⟩⟩ ⟨fits, fun i from_start inside reaches none => ?_, fun long reaches => ?_⟩
  · have large : unsigned (t.length : ℤ) ≥ t.length :=
     le_of_eq (unsigned_natCast size_fits).symm
    rw [returned, bind_some, conclude, if_pos large, checked_eq here]
  · exact absurd none (passed i from_start (reaches.none_ended q after occurs))
  · have later := reaches.none_ended q after occurs
    omega
 | stopped i returned after inside i_fits reaches none =>
  have large : unsigned (-1) ≥ t.length := by
   rw [unsigned]
   omega
  rw [returned, bind_some, conclude, if_pos large]
  constructor
  · rintro ⟨answer, computed, first⟩
    obtain ⟨next_fits, rfl⟩ := checked_eq_some_iff.mp computed
    have occurs : t <+: s.drop (i + 1) := by
     rcases first with ⟨absent, -⟩ | ⟨q, -, here, occurs, -⟩
     · omega
     · rwa [show q = i + 1 by omega] at occurs
    refine ⟨fits, fun other from_start _ reaches' none' => ?_, fun long reaches' => ?_⟩
    · rcases lt_trichotomy other i with earlier | rfl | later
      · exact absurd none' (reaches.passed other from_start earlier)
      · exact occurs
      · exact absurd none (reaches'.passed i after later)
    · refine reaches'.passed i after ?_ none
      have at_most := next_fits.2
      omega
  · intro answerable
    have occurs := answerable.follows i after inside reaches none
    have next_fits : Fits ((i : ℤ) - -1) := by
     refine ⟨by omega, ?_⟩
     by_contra beyond
     have at_most : intMax.toNat = i := by omega
     exact answerable.stops (by omega) (at_most ▸ reaches)
    refine ⟨_, checked_eq next_fits, .inr ⟨i + 1, by omega, by omega, occurs,
     fun other from_start occurs' => ?_⟩⟩
    by_contra before
    have ended := reaches.none_ended other from_start occurs'
    exact none (i + 1 - other) (by omega) (by omega)
     (ends_of_occurs occurs' from_start (by omega) (by omega))
 | ended j returned short n_fits reaches =>
  have j_fits : (j : ℤ) ≤ intMax := by omega
  have small_j : ¬unsigned (j : ℤ) ≥ t.length := by
   rw [unsigned_natCast j_fits]
   omega
  rw [returned, bind_some, conclude, if_neg small_j]
  refine iff_of_true ⟨-1, rfl, .inl ⟨rfl, fun q after occurs => ?_⟩⟩
   ⟨fits, fun i from_start inside _ none => ?_, fun long _ => by omega⟩
  · have later := reaches.none_ended q after occurs
    have room := occurs.length_le
    rw [length_drop] at room
    omega
  · exact absurd none (reaches.passed i from_start inside)
 | overflow returned long reaches =>
  rw [returned]
  refine iff_of_false ?_ fun answerable => answerable.stops long reaches
  simp

end

/-- `index0` returns the first occurrence, or -1, exactly where it is answerable. -/
theorem index0_first_iff (s t : List α) (pos : ℕ) (nonempty : t ≠ [])
 (positive : 1 ≤ pos) (within : pos ≤ s.length + 1) (is_int : (pos : ℤ) ≤ intMax) :
 (∃ answer, index0 s t pos = some answer ∧ IsFirst s t (pos - 1) answer) ↔
  Answerable s t (pos - 1) := by
 have size : 0 < t.length := length_pos_of_ne_nil nonempty
 obtain ⟨complete, incomplete⟩ := getnext0_eq nonempty
 by_cases fits : t.length ≤ 50
 · obtain ⟨next, made, table⟩ := complete fits
   have seen : (s.take (pos - 1)).drop (pos - 1) = [] := by
    rw [drop_eq_nil_iff, length_take]
    exact min_le_left _ _
   have outcome : Outcome s t (pos - 1)
    (index0Loop s t next (2 * s.length + 2) (pos - 1) (((1 : ℕ) : ℤ) - 1)) := by
    refine index0Loop_outcome size fits table le_rfl (by omega) (by omega)
     (reaches_start s t (pos - 1) size) (fun c _ => ?_) (fun b equal => ?_)
     (fun _ => Nat.one_pos) (by omega)
    · exact seen.symm ▸ (longest_nil t _).continuedBelow c
    · obtain rfl := Nat.succ.inj equal
      exact ⟨size, ends_zero _ _⟩
   rw [index0, made, bind_some]
   exact outcome.first_iff size fits
 · rw [index0, incomplete (by omega), bind_none]
   refine iff_of_false ?_ fun answerable => fits answerable.fits
   simp

theorem index0_first_iff_ab : Answerable "ab".toList "b".toList (1 - 1) := by
 refine (index0_first_iff "ab".toList "b".toList 1 (by decide) (by decide) (by decide)
  (by decide)).mp ⟨1, by decide, .inr ⟨1, by decide, rfl, by decide, fun other _ occurs => ?_⟩⟩
 cases other with
 | zero => exact absurd occurs (by decide)
 | succ other => exact Nat.succ_le_succ (Nat.zero_le other)

/-- The pattern `a` is not in `b`, but its place after the end is returned. -/
theorem index0_not_found_b :
 index0 "b".toList "a".toList 1 = some 1 ∧
  ¬∃ answer, index0 "b".toList "a".toList 1 = some answer ∧
   IsFirst "b".toList "a".toList 0 answer := by
 have returned : index0 "b".toList "a".toList 1 = some 1 := by decide
 refine ⟨returned, ?_⟩
 rintro ⟨answer, computed, first⟩
 obtain rfl := Option.some.inj (returned.symm.trans computed)
 rcases first with ⟨absent, -⟩ | ⟨q, -, here, occurs, -⟩
 · exact absurd absent (by decide)
 · obtain rfl : q = 1 := by omega
   exact absurd occurs (by decide)

end MyNotes.Algorithms.KmpIndex0
