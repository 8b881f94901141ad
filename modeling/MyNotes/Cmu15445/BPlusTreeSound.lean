/-
The operations of the B+ tree as changes of a paged tree.

Each splits or merges at a separator inside the keys of its page, so paths to other pages
stay and the tree stays sound.
-/

import MyNotes.Cmu15445.BPlusTree
import MyNotes.Library.PagedTreeChanges

namespace MyNotes.Cmu15445

open Library.PagedTree List Option

variable {Key Value : Type}

namespace BPlusTree

variable {tree next : BPlusTree Key Value} {page other parent new left right child first : PageId}
 {node : BPlusTreePage Key Value} {before after rest : List (Key × PageId)} {position : ℕ}

@[simp] theorem setPage_node_same : (tree.setPage page node).node page = some node := by
 simp [setPage]

theorem setPage_node_other (different : other ≠ page) :
 (tree.setPage page node).node other = tree.node other := by
 simp [setPage, different]

@[simp] theorem deletePage_node_same : (tree.deletePage page).node page = none := by
 simp [deletePage]

theorem deletePage_node_other (different : other ≠ page) :
 (tree.deletePage page).node other = tree.node other := by
 simp [deletePage, different]

@[simp] theorem setPage_root : (tree.setPage page node).root = tree.root := rfl

theorem around_eq (found : around child first rest = some (before, after)) :
 rest = before ++ after ∧ lastChild first before = child := by
 induction rest generalizing first before with
 | nil =>
  unfold around at found
  split at found
  · rename_i same
    cases found
    exact ⟨rfl, same⟩
  · cases found
 | cons entry rest ih =>
  unfold around at found
  split at found
  · rename_i same
    cases found
    exact ⟨rfl, same⟩
  · obtain ⟨⟨earlier, later⟩, rest, same⟩ := map_eq_some_iff.mp found
    cases same
    obtain ⟨whole, last⟩ := ih rest
    simp_all

variable [LinearOrder Key] {key separator : Key} {lower upper whole : BPlusTreePage Key Value}

theorem split_leaf {entries : List (Key × Value)} (sorted : Increasing entries)
 (cut : BPlusTreePage.split position (.leaf entries) = some (lower, separator, upper)) :
 Cut (.leaf entries) lower separator upper ∧
  (∃ entry ∈ entries, entry.1 = separator) ∧ ∃ entry ∈ entries, entry.1 < separator := by
 have whole := take_append_drop position entries
 simp only [BPlusTreePage.split] at cut
 split at cut
 · rename_i low more key value high kept moved
   cases cut
   rw [kept, moved] at whole
   rw [← whole] at sorted ⊢
   obtain ⟨-, ordered, between⟩ := pairwise_append.mp sorted
   have below : ∀ entry ∈ low :: more, entry.1 < separator := fun entry member =>
    between entry member _ mem_cons_self
   refine ⟨.leaf below ?_, ?_, ?_⟩
   · intro entry member
     rcases mem_cons.mp member with same | later
     · exact le_of_eq (congrArg Prod.fst same).symm
     · exact le_of_lt ((pairwise_cons.mp ordered).1 entry later)
   · exact ⟨(separator, value), mem_append_right _ mem_cons_self, rfl⟩
   · grind
 · cases cut

theorem split_inner
 (cut : BPlusTreePage.split position (.inner first rest : BPlusTreePage Key Value) =
  some (lower, separator, upper)) :
 Cut (.inner first rest) lower separator upper ∧ ∃ entry ∈ rest, entry.1 = separator := by
 have whole := take_append_drop (position - 1) rest
 simp only [BPlusTreePage.split] at cut
 split at cut
 · rename_i key child high moved
   cases cut
   rw [moved] at whole
   constructor
   · have cut : Cut (.inner first _ : BPlusTreePage Key Value) _ _ _ :=
      .inner first (rest.take (position - 1)) separator child high
     rw [whole] at cut
     exact cut
   · exact ⟨_, whole ▸ mem_append_right _ mem_cons_self, rfl⟩
 · cases cut

variable (sound : Sound tree)
include sound

theorem split_cut (found : tree.node page = some whole)
 (cut : BPlusTreePage.split position whole = some (lower, separator, upper)) :
 Cut whole lower separator upper ∧ OnPath tree separator page ∧
  ∃ key < separator, OnPath tree key page := by
 cases whole with
 | leaf entries =>
  obtain ⟨cut, ⟨high, inside, same⟩, low, member, below⟩ := split_leaf (sound.sorted found) cut
  exact ⟨cut, same ▸ sound.placed found high inside, low.1, below,
   sound.placed found low member⟩
 | inner first rest =>
  obtain ⟨cut, entry, member, same⟩ := split_inner cut
  exact ⟨cut, same ▸ sound.covered found entry member⟩

theorem split_splits (fresh : tree.node new = none)
 (isSplit : tree.split parent page new position = some next) :
 ∃ parts, Splits tree next parent page new parts := by
 unfold split at isSplit
 simp only [bind_eq_bind, bind_eq_some_iff] at isSplit
 obtain ⟨above, aboveFound, isSplit⟩ := isSplit
 split at isSplit
 · rename_i first rest
   simp only [bind_eq_some_iff] at isSplit
   obtain ⟨⟨before, after⟩, sides, whole, found, ⟨lower, separator, upper⟩, cut, same⟩ := isSplit
   cases same
   obtain ⟨isCut, through, low⟩ := split_cut sound found cut
   obtain ⟨same, last⟩ := around_eq sides
   subst same
   have one : One tree parent page ⟨first, before, separator, after, whole, lower, upper⟩ :=
    ⟨isCut, last, aboveFound, found⟩
   have parentPage : parent ≠ page := fun same =>
    sound.not_self through (same ▸ one.isChild)
   have parentNew : parent ≠ new := by
    intro same
    cases (same ▸ aboveFound).symm.trans fresh
   have pageNew : page ≠ new := by
    intro same
    cases (same ▸ found).symm.trans fresh
   refine ⟨_, one, ⟨isCut, last, ?_, ?_, ?_⟩, fresh, ⟨rfl, ?_⟩, through, low⟩
   · rw [setPage_node_other parentNew, setPage_node_other parentPage, setPage_node_same]
   · rw [setPage_node_other pageNew, setPage_node_same]
   · rw [setPage_node_same]
   · intro other outside
     simp only [mem_cons, not_mem_nil, or_false, not_or] at outside
     rw [setPage_node_other outside.2.2, setPage_node_other outside.2.1,
      setPage_node_other outside.1]
 · cases isSplit

theorem coalesce_merges (merge : tree.coalesce parent left right = some next) :
 ∃ parts, Merges tree next parent left right parts := by
 unfold coalesce at merge
 simp only [bind_eq_bind, bind_eq_some_iff] at merge
 obtain ⟨above, aboveFound, merge⟩ := merge
 split at merge
 · rename_i first rest
   simp only [bind_eq_some_iff] at merge
   obtain ⟨sides, around, merge⟩ := merge
   split at merge
   · rename_i before separator other after
     simp only [bind_eq_some_iff] at merge
     obtain ⟨lower, leftFound, upper, rightFound, whole, isMerged, merge⟩ := merge
     split at merge
     · rename_i same
       subst same
       cases merge
       obtain ⟨same, last⟩ := around_eq around
       subst same
       have cut : Cut whole lower separator upper := by
        cases lower with
        | leaf lower =>
         cases upper with
         | leaf upper =>
          cases isMerged
          refine .leaf ?_ ?_
          · intro entry member
            exact sound.lt_of_left aboveFound last (sound.placed leftFound entry member)
          · intro entry member
            exact sound.le_of_right aboveFound (sound.placed rightFound entry member)
         | inner child upper => cases isMerged
        | inner first lower =>
         cases upper with
         | leaf upper => cases isMerged
         | inner child upper =>
          cases isMerged
          exact .inner first lower separator child upper
       have two : Two tree parent left other
        ⟨first, before, separator, after, whole, lower, upper⟩ :=
        ⟨cut, last, aboveFound, leftFound, rightFound⟩
       obtain ⟨parentLeft, parentRight⟩ := two.parent_ne sound
       have leftRight := two.page_ne sound
       refine ⟨_, two, ⟨cut, last, ?_, ?_⟩, deletePage_node_same, ⟨rfl, ?_⟩⟩
       · rw [deletePage_node_other parentRight, setPage_node_other parentLeft, setPage_node_same]
       · rw [deletePage_node_other leftRight, setPage_node_same]
       · intro outer outside
         simp only [mem_cons, not_mem_nil, or_false, not_or] at outside
         rw [deletePage_node_other outside.2.2, setPage_node_other outside.2.1,
          setPage_node_other outside.1]
     · cases merge
   · cases merge
 · cases merge

theorem redistribute_changes (move : tree.redistribute parent left right position = some next) :
 Changes tree next [parent, left, right] ∧ next.root = tree.root := by
 obtain ⟨merged, merge, isSplit⟩ := bind_eq_some_iff.mp move
 obtain ⟨parts, merges⟩ := coalesce_merges sound merge
 have changes := merges.changes sound
 obtain ⟨others, splits⟩ := split_splits changes.sound merges.gone isSplit
 exact ⟨changes.trans (splits.changes changes.sound),
  splits.outside.root.trans merges.outside.root⟩

theorem splitRoot_changes {root : PageId} (isRoot : tree.root = some page)
 (rootFresh : tree.node root = none) (newFresh : tree.node new = none) (different : new ≠ root)
 (isSplit : tree.splitRoot page root new position = some next) :
 Changes tree next [root, page, new] := by
 let above := (tree.setPage root (.inner page [])).setRoot (some root)
 have grows : Grows tree above page root :=
  { old := isRoot
    fresh := rootFresh
    isRoot := rfl
    inner := setPage_node_same
    outside := fun other outside => setPage_node_other outside }
 have changes := grows.changes sound
 have stillFresh : above.node new = none := (grows.outside new different).trans newFresh
 obtain ⟨parts, splits⟩ := split_splits changes.sound stillFresh isSplit
 refine (changes.mono ?_).trans (splits.changes changes.sound)
 simp

theorem adjustRoot_changes (isRoot : tree.root = some parent)
 (single : tree.node parent = some (.inner left [])) :
 Changes tree (tree.adjustRoot parent left) [parent, left] :=
 Shrinks.changes sound
  { old := isRoot
    inner := single
    isRoot := rfl
    gone := deletePage_node_same
    outside := fun _ outside => deletePage_node_other outside }

end BPlusTree

/-! ### The entries of a leaf -/

section

variable [LinearOrder Key] {key : Key} {value : Value} {entries others : List (Key × Value)}

namespace BPlusTreePage

theorem lookup_eq_none : lookup key entries = none ↔ ∀ entry ∈ entries, entry.1 ≠ key := by
 simp [lookup]

theorem lookup_of_mem (sorted : Increasing entries) (member : (key, value) ∈ entries) :
 lookup key entries = some value := by
 induction entries with
 | nil => cases member
 | cons head entries ih =>
  obtain ⟨above, ordered⟩ := pairwise_cons.mp sorted
  unfold lookup
  rcases mem_cons.mp member with same | later
  · rw [← same, List.find?_cons_of_pos (by simp)]
    rfl
  · have different : head.1 ≠ key := ne_of_lt (above (key, value) later)
    rw [List.find?_cons_of_neg (by simpa using different)]
    exact ih ordered later

theorem mem_insertEntry {entry : Key × Value} :
 entry ∈ insertEntry key value entries ↔ entry = (key, value) ∨ entry ∈ entries := by
 unfold insertEntry
 rw [mem_append, mem_cons, or_left_comm, ← mem_append,
  takeWhile_append_dropWhile]

theorem insertEntry_length : (insertEntry key value entries).length = entries.length + 1 := by
 have same : entries.takeWhile (·.1 < key) ++ entries.dropWhile (·.1 < key) = entries :=
  takeWhile_append_dropWhile
 unfold insertEntry
 grind

theorem insertEntry_increasing (sorted : Increasing entries) (absent : lookup key entries = none) :
 Increasing (insertEntry key value entries) := by
 have notHere := lookup_eq_none.mp absent
 clear absent
 unfold insertEntry
 induction entries with
 | nil => exact pairwise_singleton _ _
 | cons head entries ih =>
  obtain ⟨above, ordered⟩ := pairwise_cons.mp sorted
  by_cases below : head.1 < key
  · rw [takeWhile_cons_of_pos (by simpa using below),
     dropWhile_cons_of_pos (by simpa using below), cons_append]
    refine pairwise_cons.mpr ⟨?_, ih ordered fun entry member =>
     notHere entry (mem_cons_of_mem _ member)⟩
    intro entry member
    rcases mem_insertEntry.mp member with same | old
    · exact same ▸ below
    · exact above entry old
  · rw [takeWhile_cons_of_neg (by simpa using below),
     dropWhile_cons_of_neg (by simpa using below), nil_append]
    have first : key < head.1 :=
     lt_of_le_of_ne (not_lt.mp below) (notHere head mem_cons_self).symm
    refine pairwise_cons.mpr ⟨?_, sorted⟩
    intro entry member
    rcases mem_cons.mp member with same | later
    · exact same ▸ first
    · exact lt_trans first (above entry later)

theorem removeEntry_length (sorted : Increasing entries) :
 entries.length ≤ (removeEntry key entries).length + 1 := by
 induction entries with
 | nil => exact Nat.zero_le _
 | cons head entries ih =>
  obtain ⟨above, ordered⟩ := pairwise_cons.mp sorted
  unfold removeEntry at ih ⊢
  by_cases same : head.1 = key
  · rw [filter_cons_of_neg (by simpa using same), filter_eq_self.mpr]
    · exact Nat.le_refl _
    · grind
  · rw [filter_cons_of_pos (by simpa using same)]
    exact Nat.succ_le_succ (ih ordered)

end BPlusTreePage

namespace Operation

open BPlusTreePage

variable {operation : Operation Key Value}

theorem apply_increasing (sorted : Increasing entries)
 (applied : operation.apply entries = some others) : Increasing others := by
 cases operation with
 | insert key value =>
  simp only [apply] at applied
  split at applied
  · rename_i absent
    cases applied
    exact insertEntry_increasing sorted absent
  · cases applied
 | delete key =>
  simp only [apply] at applied
  split at applied
  · cases applied
  · cases applied
    exact sorted.sublist filter_sublist

theorem apply_mem (applied : operation.apply entries = some others) {entry : Key × Value}
 (member : entry ∈ others) : entry ∈ entries ∨ entry.1 = operation.key := by
 cases operation with
 | insert key value =>
  simp only [apply] at applied
  split at applied
  · cases applied
    exact (mem_insertEntry.mp member).symm.imp_right fun same => congrArg Prod.fst same
  · cases applied
 | delete key =>
  simp only [apply] at applied
  split at applied
  · cases applied
  · cases applied
    exact .inl (mem_of_mem_filter member)

theorem apply_settled {sizes : PageSizes} {isRoot : Bool} (sorted : Increasing entries)
 (applied : operation.apply entries = some others)
 (isSafe : (if isRoot then operation.safeRoot sizes (.leaf entries)
  else operation.safe sizes (.leaf entries)) = true) :
 operation.unsettled sizes isRoot (.leaf others) = false := by
 cases operation with
 | insert key value =>
  have room : entries.length < sizes.leafMaxSize - 1 := by
   simpa [safeRoot, safe] using isSafe
  simp only [apply] at applied
  split at applied
  · cases applied
    simp only [unsettled, overflows, insertEntry_length, decide_eq_false_iff_not]
    omega
  · cases applied
 | delete key =>
  have shorter : entries.length ≤ (removeEntry key entries).length + 1 :=
   removeEntry_length sorted
  simp only [apply] at applied
  split at applied
  · cases applied
  · cases applied
    cases isRoot with
    | true =>
     have many : 2 < entries.length := of_decide_eq_true isSafe
     have some_left : 0 < (removeEntry key entries).length := by omega
     obtain ⟨head, rest, same⟩ := exists_cons_of_length_pos some_left
     rw [same]
     rfl
    | false =>
     have many : sizes.leafMinSize < entries.length := of_decide_eq_true isSafe
     have enough : ¬ (removeEntry key entries).length < sizes.leafMinSize := by omega
     exact decide_eq_false enough

end Operation

end

end MyNotes.Cmu15445
