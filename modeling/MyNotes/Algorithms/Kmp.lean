/-
The string search of the algorithm notes, with a prefix table and with the sentinel -1.

Reading or writing outside a string or a table is a fault, and so is an `int` that does not fit.
The loop that falls back along the table has one round more than the pattern has characters, which
is enough because each round makes the prefix shorter.
-/

import MyNotes.Library.Border
import MyNotes.Library.CheckedArray
import MyNotes.Library.CheckedInt
import Mathlib

namespace MyNotes.Algorithms.Kmp

open Library.Border Library.CheckedArray Library.CheckedInt List Option Nat Int

variable {α : Type*} [DecidableEq α]

/-- `while (k > 0 && pattern[k] != c) k = pi[k - 1];`. -/
def fallback (pattern : List α) (pi : List ℕ) (c : α) : ℕ → ℕ → Option ℕ
 | 0, _ => none
 | rounds + 1, k =>
  if k > 0 then
   pattern[k]?.bind fun here =>
    if here ≠ c then pi[k - 1]?.bind fun shorter => fallback pattern pi c rounds shorter
    else some k
  else some k

/-- The loop, and `if (pattern[k] == c) k++;` behind it. -/
def advance (pattern : List α) (pi : List ℕ) (c : α) (k : ℕ) : Option ℕ :=
 (fallback pattern pi c (pattern.length + 1) k).bind fun k =>
  pattern[k]?.map fun here => if here = c then k + 1 else k

/-- The rounds of `computePrefixFunction` from `i` on, so many. -/
def computeLoop (pattern : List α) : ℕ → ℕ → ℕ → List ℕ → Option (List ℕ)
 | 0, _, _, pi => some pi
 | rest + 1, i, k, pi =>
  pattern[i]?.bind fun c =>
   (advance pattern pi c k).bind fun k =>
    (store pi i k).bind fun pi => computeLoop pattern rest (i + 1) k pi

def computePrefixFunction (pattern : List α) : Option (List ℕ) :=
 (checkedNat pattern.length).bind fun m =>
  computeLoop pattern (m - 1) 1 0 (List.replicate m 0)

/-- The rounds of `KMP` from `i` on, so many. -/
def searchLoop (text pattern : List α) (pi : List ℕ) (m : ℕ) :
 ℕ → ℕ → ℕ → List ℤ → Option (List ℤ)
 | 0, _, _, result => some result
 | rest + 1, i, k, result =>
  text[i]?.bind fun c =>
   (advance pattern pi c k).bind fun k =>
    if k = m then
     pi[k - 1]?.bind fun k =>
      searchLoop text pattern pi m rest (i + 1) k (result ++ [(i : ℤ) - m + 1])
    else searchLoop text pattern pi m rest (i + 1) k result

def kmp (text pattern : List α) : Option (List ℤ) :=
 (checkedNat text.length).bind fun n =>
  (checkedNat pattern.length).bind fun m =>
   (computePrefixFunction pattern).bind fun pi => searchLoop text pattern pi m n 0 0 []

/-! ### With the sentinel -/

/-- `while (j >= 0 && c != s[j + 1]) j = next[j];`. -/
def sentinelFallback (s : List α) (next : List ℤ) (c : α) : ℕ → ℤ → Option ℤ
 | 0, _ => none
 | rounds + 1, j =>
  if j ≥ 0 then
   (load s (j + 1)).bind fun here =>
    if c ≠ here then (load next j).bind fun j => sentinelFallback s next c rounds j
    else some j
  else some j

/-- The loop, and `if (c == s[j + 1]) j++;` behind it. -/
def sentinelAdvance (s : List α) (next : List ℤ) (c : α) (j : ℤ) : Option ℤ :=
 (sentinelFallback s next c (s.length + 1) j).bind fun j =>
  (load s (j + 1)).map fun here => if c = here then j + 1 else j

/-- The rounds of `getNext` from `i` on, so many. -/
def nextLoop (s : List α) : ℕ → ℕ → ℤ → List ℤ → Option (List ℤ)
 | 0, _, _, next => some next
 | rest + 1, i, j, next =>
  s[i]?.bind fun c =>
   (sentinelAdvance s next c j).bind fun j =>
    (store next i j).bind fun next =>
     (checkedNat (i + 1)).bind fun i => nextLoop s rest i j next

def getNext (next : List ℤ) (s : List α) : Option (List ℤ) :=
 (store next 0 (-1)).bind fun next => nextLoop s (s.length - 1) 1 (-1) next

/-- The rounds of `strStr` from `i` on, so many.  The comparison makes `j` unsigned. -/
def strLoop (haystack needle : List α) (next : List ℤ) : ℕ → ℕ → ℤ → Option ℤ
 | 0, _, _ => some (-1)
 | rest + 1, i, j =>
  haystack[i]?.bind fun c =>
   (sentinelAdvance needle next c j).bind fun j =>
    if j % 18446744073709551616 = needle.length - 1 then some (i - needle.length + 1)
    else (checkedNat (i + 1)).bind fun i => strLoop haystack needle next rest i j

def strStr (haystack needle : List α) : Option ℤ :=
 if needle.length = 0 then some 0
 else
  (getNext (List.replicate needle.length 0) needle).bind fun next =>
   strLoop haystack needle next haystack.length 0 (-1)

/-! ### The prefix table -/

/-- The first entries, so many, are the lengths of the longest proper prefixes that are suffixes. -/
def IsPrefixTable (pattern : List α) (pi : List ℕ) (count : ℕ) : Prop :=
 ∀ i < count, ∃ k, pi[i]? = some k ∧ Longest pattern (pattern.take (i + 1)) i k

variable {pattern text seen : List α} {pi : List ℕ} {next : List ℤ} {c : α}
 {count limit rounds rest i k : ℕ}

theorem fallback_eq (table : IsPrefixTable pattern pi count) (known : k ≤ count)
 (short : k < pattern.length) (ends : Ends pattern seen k)
 (continued : ContinuedBelow pattern seen limit c (k + 1)) (enough : k < rounds) :
 ∃ k' ≤ k, fallback pattern pi c rounds k = some k' ∧ Ends pattern seen k' ∧
  ContinuedBelow pattern seen limit c (k' + 1) ∧ (k' = 0 ∨ pattern[k']? = some c) := by
 induction rounds generalizing k with
 | zero => cases enough
 | succ rounds ih =>
  rw [fallback]
  by_cases positive : k > 0
  · rw [if_pos positive, getElem?_eq_getElem short, bind_some]
    by_cases differs : pattern[k] ≠ c
    · obtain ⟨shorter, here, longest⟩ := table (k - 1) (by omega)
      have fewer : shorter < k := Nat.lt_of_le_pred positive longest.within
      have whole : k - 1 + 1 = k := Nat.sub_add_cancel positive
      rw [whole] at longest
      rw [if_pos differs, here, bind_some]
      have falls : ContinuedBelow pattern seen limit c (shorter + 1) := by
       refine continued.fall ends (fun same => differs ?_) (longest.fallsBelow whole.ge)
       rw [getElem?_eq_getElem short] at same
       exact some.inj same
      obtain ⟨k', least, done⟩ := ih (fewer.le.trans known) (fewer.trans short)
       ((ends.shorter_iff fewer.le).mpr longest.ends) falls (by omega)
      exact ⟨k', least.trans fewer.le, done⟩
    · simp_all
  · simp_all

theorem advance_eq (table : IsPrefixTable pattern pi count) (known : k ≤ count)
 (short : k < pattern.length) (longest : Longest pattern seen limit k) :
 ∃ k', advance pattern pi c k = some k' ∧
  Longest pattern (seen ++ [c]) (limit + 1) k' := by
 obtain ⟨k', fewer, found, ends, continued, stopped⟩ := fallback_eq table known
  short longest.ends (longest.continuedBelow c) (show k < pattern.length + 1 by omega)
 have inside : k' < pattern.length := fewer.trans_lt short
 rw [advance, found, bind_some, getElem?_eq_getElem inside, map_some]
 by_cases same : pattern[k'] = c
 · have here : pattern[k']? = some c := by rw [getElem?_eq_getElem inside, same]
   rw [if_pos same]
   exact ⟨_, rfl, continued.extend ends (fewer.trans longest.within) here⟩
 · have differs : pattern[k']? ≠ some c := by
    rw [getElem?_eq_getElem inside]
    exact fun equal => same (some.inj equal)
   obtain rfl := stopped.resolve_right differs
   rw [if_neg same]
   refine ⟨_, rfl, ContinuedBelow.restart (continued.fall ends differs ?_)⟩
   exact fun other less => absurd less (not_lt_zero other)

omit [DecidableEq α] in
theorem IsPrefixTable.store {entry : ℕ} (table : IsPrefixTable pattern pi i)
 (inside : i < pi.length) (longest : Longest pattern (pattern.take (i + 1)) i entry) :
 IsPrefixTable pattern (pi.set i entry) (i + 1) := by
 intro index within
 rcases Nat.lt_succ_iff_lt_or_eq.mp within with earlier | rfl
 · obtain ⟨k, here, known⟩ := table index earlier
   grind
 · simp_all

theorem computeLoop_eq (rest_of : i + 1 + rest = pattern.length)
 (sizes : pi.length = pattern.length) (table : IsPrefixTable pattern pi (i + 1))
 (longest : Longest pattern (pattern.take (i + 1)) i k) :
 ∃ pi', computeLoop pattern rest (i + 1) k pi = some pi' ∧ pi'.length = pattern.length ∧
  IsPrefixTable pattern pi' pattern.length := by
 induction rest generalizing i k pi with
 | zero => exact ⟨pi, rfl, sizes, rest_of ▸ table⟩
 | succ rest ih =>
  have inside : i + 1 < pattern.length := by omega
  have within := longest.within
  obtain ⟨k', found, extended⟩ := advance_eq (c := pattern[i + 1]) table
   (le_succ_of_le within) (by omega) longest
  rw [← take_succ_eq_append_getElem inside] at extended
  have stored : i + 1 < pi.length := sizes ▸ inside
  rw [computeLoop, getElem?_eq_getElem inside, bind_some, found, bind_some,
   store_eq stored, bind_some]
  exact ih (by omega) (length_set.trans sizes) (table.store stored extended) extended

theorem computePrefixFunction_eq (nonempty : pattern ≠ [])
 (fits : (pattern.length : ℤ) ≤ intMax) :
 ∃ pi, computePrefixFunction pattern = some pi ∧ pi.length = pattern.length ∧
  IsPrefixTable pattern pi pattern.length := by
 have positive : 0 < pattern.length := length_pos_of_ne_nil nonempty
 rw [computePrefixFunction, checkedNat_eq fits, bind_some]
 refine computeLoop_eq (by omega) length_replicate ?_ (longest_first pattern _)
 intro index first
 obtain rfl := lt_one_iff.mp first
 exact ⟨0, getElem?_replicate_of_lt positive, longest_first pattern _⟩

/-! ### The search -/

theorem searchLoop_eq (table : IsPrefixTable pattern pi pattern.length)
 (size : pattern.length = limit + 1) (rest_of : i + rest = text.length)
 (longest : Longest pattern (text.take i) limit k) (result : List ℤ) :
 ∃ positions : List ℕ, searchLoop text pattern pi pattern.length rest i k result =
  some (result ++ positions.map ofNat) ∧ positions.Pairwise (· < ·) ∧
  ∀ q, q ∈ positions ↔ i < q + pattern.length ∧ pattern <+: text.drop q := by
 induction rest generalizing i k result with
 | zero =>
  refine ⟨[], by rw [map_nil, append_nil, searchLoop], List.Pairwise.nil,
   fun q => iff_of_false not_mem_nil fun both => ?_⟩
  have short := both.2.length_le
  rw [length_drop] at short
  omega
 | succ rest ih =>
  have inside : i < text.length := by omega
  have within := longest.within
  obtain ⟨k', found, extended⟩ := advance_eq (c := text[i]) table (by omega) (by omega) longest
  rw [← take_succ_eq_append_getElem inside, ← size] at extended
  have complete := ends_length_iff pattern (succ_le_of_lt inside)
  rw [searchLoop, getElem?_eq_getElem inside, bind_some, found, bind_some]
  by_cases whole : k' = pattern.length
  · subst whole
    obtain ⟨shorter, here, inner⟩ := table (pattern.length - 1) (by omega)
    obtain ⟨fits, occurs⟩ := complete.mp extended.ends
    have before : pattern.length - 1 = limit := by omega
    have again : Longest pattern (text.take (i + 1)) limit shorter := by
     refine extended.below ?_ (by omega)
     rwa [before, ← size] at inner
    obtain ⟨positions, searched, increasing, members⟩ :=
     ih (by omega) again (result ++ [(i : ℤ) - pattern.length + 1])
    rw [if_pos rfl, here, bind_some, searched]
    refine ⟨(i + 1 - pattern.length) :: positions, ?_, ?_, fun q => ?_⟩
    · have position : (i : ℤ) - pattern.length + 1 = ofNat (i + 1 - pattern.length) := by
       rw [ofNat_eq_natCast]
       omega
      simp_all
    · refine pairwise_cons.mpr ⟨fun q member => ?_, increasing⟩
      have later := ((members q).mp member).1
      omega
    · rw [mem_cons, members]
      constructor
      · rintro (rfl | ⟨later, occurs'⟩)
        · exact ⟨by omega, occurs⟩
        · exact ⟨by omega, occurs'⟩
      · rintro ⟨later, occurs'⟩
        by_cases now : q + pattern.length = i + 1
        · exact .inl (by omega)
        · exact .inr ⟨by omega, occurs'⟩
  · have shorter : k' ≤ limit := by
     have at_most := extended.within
     omega
    have again : Longest pattern (text.take (i + 1)) limit k' :=
     ⟨extended.ends, shorter, fun other below => extended.longest other (by omega)⟩
    obtain ⟨positions, searched, increasing, members⟩ := ih (by omega) again result
    rw [if_neg whole]
    refine ⟨positions, searched, increasing, fun q => (members q).trans ?_⟩
    refine and_congr_left fun occurs => ⟨fun later => by omega, fun later => ?_⟩
    by_contra now
    have ends : Ends pattern (text.take (i + 1)) pattern.length :=
     complete.mpr ⟨by omega, by rwa [show i + 1 - pattern.length = q by omega]⟩
    exact whole (le_antisymm extended.within (extended.longest _ le_rfl ends))

theorem kmp_eq (nonempty : pattern ≠ []) (fits : (pattern.length : ℤ) ≤ intMax)
 (text_fits : (text.length : ℤ) ≤ intMax) :
 ∃ positions : List ℕ, kmp text pattern = some (positions.map ofNat) ∧
  positions.Pairwise (· < ·) ∧ ∀ q, q ∈ positions ↔ pattern <+: text.drop q := by
 have positive : 0 < pattern.length := length_pos_of_ne_nil nonempty
 obtain ⟨pi, computed, -, table⟩ := computePrefixFunction_eq nonempty fits
 obtain ⟨positions, searched, increasing, members⟩ := searchLoop_eq (i := 0) (k := 0) table
  (show pattern.length = pattern.length - 1 + 1 by omega) (zero_add text.length)
  (longest_nil pattern _) []
 refine ⟨positions, ?_, increasing, fun q => (members q).trans ?_⟩
 · rw [kmp, checkedNat_eq text_fits, bind_some, checkedNat_eq fits, bind_some,
    computed, bind_some]
   exact searched
 · exact and_iff_right (by omega)

/-! ### With the sentinel -/

theorem sentinelFallback_eq (table : IsPrefixTable pattern pi count) (known : k ≤ count)
 (agree : ∀ j < count, next[j]? = pi[j]?.map fun k : ℕ => (k : ℤ) - 1) :
 sentinelFallback pattern next c rounds ((k : ℤ) - 1) =
  (fallback pattern pi c rounds k).map fun k : ℕ => (k : ℤ) - 1 := by
 induction rounds generalizing k with
 | zero => rfl
 | succ rounds ih =>
  cases k with
  | zero => rfl
  | succ k =>
   have as_index : ((k + 1 : ℕ) : ℤ) - 1 = k := by omega
   have as_position : (k : ℤ) + 1 = ((k + 1 : ℕ) : ℤ) := by omega
   rw [sentinelFallback, fallback, as_index, if_pos (natCast_nonneg k),
    if_pos (Nat.succ_pos k), as_position, load_natCast, load_natCast, agree k known,
    Nat.add_sub_cancel]
   obtain ⟨shorter, here, longest⟩ := table k known
   rw [here, map_some, bind_some, bind_some]
   cases pattern[k + 1]? with
   | none => rfl
   | some found =>
    rw [bind_some, bind_some, ih (longest.within.trans (by omega))]
    by_cases same : found = c
    · grind
    · rw [if_pos same, if_pos (Ne.symm same)]

theorem sentinelAdvance_eq (next : List ℤ) (table : IsPrefixTable pattern pi count)
 (known : k ≤ count) (agree : ∀ j < count, next[j]? = pi[j]?.map fun k : ℕ => (k : ℤ) - 1) :
 sentinelAdvance pattern next c ((k : ℤ) - 1) =
  (advance pattern pi c k).map fun k : ℕ => (k : ℤ) - 1 := by
 rw [sentinelAdvance, advance, sentinelFallback_eq table known agree]
 cases fallback pattern pi c (pattern.length + 1) k with
 | none => rfl
 | some k =>
  rw [map_some, bind_some, bind_some, sub_add_cancel, load_natCast]
  cases pattern[k]? with
  | none => rfl
  | some here =>
   rw [map_some, map_some, map_some]
   by_cases same : here = c
   · simp_all
   · rw [if_neg same, if_neg (Ne.symm same)]

theorem nextLoop_eq (fits : (pattern.length : ℤ) ≤ intMax)
 (table : IsPrefixTable pattern pi pattern.length) (pi_size : pi.length = pattern.length)
 (rest_of : i + 1 + rest = pattern.length) (sizes : next.length = pattern.length)
 (agree : ∀ j < i + 1, next[j]? = pi[j]?.map fun k : ℕ => (k : ℤ) - 1)
 (longest : Longest pattern (pattern.take (i + 1)) i k) :
 nextLoop pattern rest (i + 1) ((k : ℤ) - 1) next = some (pi.map fun k : ℕ => (k : ℤ) - 1) := by
 induction rest generalizing i k next with
 | zero =>
  refine congrArg some (ext_getElem? fun j => ?_)
  rw [getElem?_map]
  by_cases inside : j < i + 1
  · exact agree j inside
  · rw [getElem?_eq_none (by omega), getElem?_eq_none (by omega), map_none]
 | succ rest ih =>
  have inside : i + 1 < pattern.length := by omega
  have stored : i + 1 < next.length := sizes ▸ inside
  have known : IsPrefixTable pattern pi (i + 1) := fun j before => table j (by omega)
  have within := longest.within
  obtain ⟨k', found, extended⟩ := advance_eq (c := pattern[i + 1]) known
   (Nat.le_succ_of_le within) (by omega) longest
  rw [← take_succ_eq_append_getElem inside] at extended
  obtain ⟨entry, here, unique⟩ := table (i + 1) inside
  have moved := sentinelAdvance_eq next (c := pattern[i + 1]) known
   (Nat.le_succ_of_le within) agree
  rw [nextLoop, getElem?_eq_getElem inside, bind_some, moved, found,
   map_some, bind_some, store_eq stored, bind_some,
   checkedNat_eq (by omega), bind_some]
  refine ih (by omega) (length_set.trans sizes) (fun j within => ?_) extended
  rcases Nat.lt_succ_iff_lt_or_eq.mp within with earlier | rfl
  · exact (getElem?_set_ne earlier.ne').trans (agree j earlier)
  · rw [getElem?_set_self stored, here, map_some, unique.unique extended]

theorem getNext_eq (nonempty : pattern ≠ []) (fits : (pattern.length : ℤ) ≤ intMax)
 (table : IsPrefixTable pattern pi pattern.length) (pi_size : pi.length = pattern.length)
 (sizes : next.length = pattern.length) :
 getNext next pattern = some (pi.map fun k : ℕ => (k : ℤ) - 1) := by
 have positive : 0 < pattern.length := length_pos_of_ne_nil nonempty
 have stored : 0 < next.length := sizes ▸ positive
 obtain ⟨entry, here, unique⟩ := table 0 positive
 rw [getNext, store_eq stored, bind_some]
 refine nextLoop_eq (k := 0) fits table pi_size (by omega) (length_set.trans sizes) ?_
  (longest_first pattern _)
 intro j first
 obtain rfl := lt_one_iff.mp first
 rw [getElem?_set_self stored, here, map_some, le_zero.mp unique.within]
 rfl

theorem unsigned_eq_iff {size : ℕ} (fits : (size : ℤ) ≤ intMax) (positive : 0 < size)
 (within : k ≤ size) :
 ((k : ℤ) - 1) % 18446744073709551616 = (size : ℤ) - 1 ↔ k = size := by
 rw [intMax] at fits
 omega

/-- The answer is the first place from the start on where the pattern occurs, or -1. -/
def IsFirst (text pattern : List α) (start : ℕ) (answer : ℤ) : Prop :=
 (answer = -1 ∧ ∀ q ≥ start, ¬pattern <+: text.drop q) ∨
  ∃ q ≥ start, answer = q ∧ pattern <+: text.drop q ∧
   ∀ other ≥ start, pattern <+: text.drop other → q ≤ other

omit [DecidableEq α] in
theorem IsFirst.of_later {start later : ℕ} {answer : ℤ} (first : IsFirst text pattern later answer)
 (behind : start ≤ later)
 (none_between : ∀ q ≥ start, pattern <+: text.drop q → later ≤ q) :
 IsFirst text pattern start answer := by
 rcases first with ⟨absent, nowhere⟩ | ⟨q, after, here, occurs, least⟩
 · exact .inl ⟨absent, fun q after occurs => nowhere q (none_between q after occurs) occurs⟩
 · refine .inr ⟨q, behind.trans after, here, occurs, fun other from_start occurs' => ?_⟩
   simp_all

theorem strLoop_eq (fits : (text.length : ℤ) ≤ intMax)
 (pattern_fits : (pattern.length : ℤ) ≤ intMax)
 (table : IsPrefixTable pattern pi pattern.length) (size : pattern.length = limit + 1)
 (rest_of : i + rest = text.length) (longest : Longest pattern (text.take i) limit k)
 (agree : next = pi.map fun k : ℕ => (k : ℤ) - 1) :
 ∃ answer, strLoop text pattern next rest i ((k : ℤ) - 1) = some answer ∧
  IsFirst text pattern (i + 1 - pattern.length) answer := by
 induction rest generalizing i k with
 | zero =>
  refine ⟨-1, rfl, .inl ⟨rfl, fun q later occurs => ?_⟩⟩
  have short := occurs.length_le
  rw [length_drop] at short
  omega
 | succ rest ih =>
  have inside : i < text.length := by omega
  have within := longest.within
  obtain ⟨k', found, extended⟩ := advance_eq (c := text[i]) table (by omega) (by omega) longest
  rw [← take_succ_eq_append_getElem inside, ← size] at extended
  have moved := sentinelAdvance_eq next (c := text[i]) (k := k) table (by omega)
   fun j _ => by rw [agree, getElem?_map]
  have complete := ends_length_iff pattern (succ_le_of_lt inside)
  rw [strLoop, getElem?_eq_getElem inside, bind_some, moved, found,
   map_some, bind_some]
  by_cases whole : k' = pattern.length
  · obtain ⟨shorter, occurs⟩ := complete.mp (whole ▸ extended.ends)
    rw [if_pos ((unsigned_eq_iff pattern_fits (by omega) extended.within).mpr whole)]
    refine ⟨_, rfl, .inr ⟨i + 1 - pattern.length, le_rfl, by omega, occurs, ?_⟩⟩
    exact fun other after _ => after
  · have shorter : k' ≤ limit := by
     have at_most := extended.within
     omega
    obtain ⟨answer, returned, first⟩ := ih (i := i + 1) (by omega)
     ⟨extended.ends, shorter, fun other below => extended.longest other (by omega)⟩
    rw [if_neg fun equal =>
     whole ((unsigned_eq_iff pattern_fits (by omega) extended.within).mp equal),
     checkedNat_eq (by omega), bind_some]
    refine ⟨answer, returned, first.of_later (by omega) fun q after occurs => ?_⟩
    by_contra now
    have ends : Ends pattern (text.take (i + 1)) pattern.length :=
     complete.mpr ⟨by omega, by rwa [show i + 1 - pattern.length = q by omega]⟩
    exact whole (le_antisymm extended.within (extended.longest _ le_rfl ends))

theorem strStr_eq (nonempty : pattern ≠ []) (fits : (pattern.length : ℤ) ≤ intMax)
 (text_fits : (text.length : ℤ) ≤ intMax) :
 ∃ answer, strStr text pattern = some answer ∧ IsFirst text pattern 0 answer := by
 have positive : 0 < pattern.length := length_pos_of_ne_nil nonempty
 obtain ⟨pi, -, sizes, table⟩ := computePrefixFunction_eq nonempty fits
 rw [strStr, if_neg positive.ne', getNext_eq nonempty fits table sizes length_replicate,
  bind_some]
 obtain ⟨answer, returned, first⟩ := strLoop_eq (i := 0) (k := 0) text_fits fits
  table (Nat.sub_add_cancel positive).symm (Nat.zero_add _) (longest_nil pattern _) rfl
 grind

/-- The table, the search and the search with the sentinel. -/
theorem kmp_strStr_occurrences (text pattern : List α) (nonempty : pattern ≠ [])
 (text_short : text.length < 2 ^ 31) (pattern_short : pattern.length < 2 ^ 31) :
 ∃ (pi positions : List ℕ),
  computePrefixFunction pattern = some pi ∧ pi.length = pattern.length ∧
  (∀ i < pattern.length, ∃ k, pi[i]? = some k ∧
   IsGreatest {count | count ≤ i ∧ pattern.take count <:+ pattern.take (i + 1)} k) ∧
  kmp text pattern = some (positions.map Int.ofNat) ∧ positions.Pairwise (· < ·) ∧
  (∀ q, q ∈ positions ↔ pattern <+: text.drop q) ∧
  getNext (List.replicate pattern.length 0) pattern = some (pi.map fun k : ℕ => (k : ℤ) - 1) ∧
  strStr text pattern = some (match positions with
   | [] => -1
   | first :: _ => (first : ℤ)) := by
 have text_fits : (text.length : ℤ) ≤ intMax := by
  rw [intMax]
  omega
 have fits : (pattern.length : ℤ) ≤ intMax := by
  rw [intMax]
  omega
 obtain ⟨pi, computed, sizes, table⟩ := computePrefixFunction_eq nonempty fits
 obtain ⟨positions, searched, increasing, members⟩ := kmp_eq nonempty fits text_fits
 obtain ⟨answer, returned, first⟩ := strStr_eq nonempty fits text_fits
 refine ⟨pi, positions, computed, sizes, fun i inside => ?_, searched, increasing, members,
  getNext_eq nonempty fits table sizes length_replicate, returned.trans (congrArg some ?_)⟩
 · obtain ⟨k, here, longest⟩ := table i inside
   exact ⟨k, here, longest.isGreatest inside.le⟩
 · cases positions with
   | nil =>
    rcases first with ⟨absent, -⟩ | ⟨q, -, -, occurs, -⟩
    · exact absent
    · cases (members q).mpr occurs
   | cons q positions =>
    have occurs := (members q).mp mem_cons_self
    rcases first with ⟨-, nowhere⟩ | ⟨q', -, found, occurs', least⟩
    · exact absurd occurs (nowhere q (Nat.zero_le q))
    · rw [found]
      refine congrArg Nat.cast (le_antisymm (least q (Nat.zero_le q) occurs) ?_)
      rcases mem_cons.mp ((members q').mpr occurs') with same | later
      · exact same.ge
      · exact ((pairwise_cons.mp increasing).1 q' later).le

theorem kmp_strStr_occurrences_aba :
 ∃ positions : List ℕ, kmp "ababa".toList "aba".toList = some (positions.map Int.ofNat) ∧
  (∀ q, q ∈ positions ↔ "aba".toList <+: "ababa".toList.drop q) ∧
  0 ∈ positions ∧ 2 ∈ positions := by
 obtain ⟨-, positions, -, -, -, searched, -, members, -⟩ :=
  kmp_strStr_occurrences "ababa".toList "aba".toList (by decide) (by decide) (by decide)
 exact ⟨positions, searched, members, (members 0).mpr (by decide), (members 2).mpr (by decide)⟩

end MyNotes.Algorithms.Kmp
