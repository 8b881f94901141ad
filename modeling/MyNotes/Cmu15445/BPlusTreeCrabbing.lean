/-
Latch crabbing on the B+ tree.

The pages that a writer still has latched are a piece of one search path.  It ends at the top
with the root, under the root latch, or with a page that the operation below cannot make too
full or too small, so no change ever needs a latch that `FindLeaf` gave back.
-/

import MyNotes.Cmu15445.BPlusTreeSound
import MyNotes.Cmu15445.BPlusTreeThreads

namespace MyNotes.Cmu15445

open Library.PagedTree List BPlusTree Operation

variable {Key Value Tid : Type}

/-- The topmost of the pages that a descent has latched on its path. -/
def oldest : PageId → List PageId → PageId
 | page, [] => page
 | _, parent :: above => oldest parent above

theorem oldest_mem {page : PageId} {above : List PageId} : oldest page above ∈ page :: above := by
 induction above generalizing page with
 | nil => exact mem_singleton_self page
 | cons parent above ih => exact mem_cons_of_mem _ ih

theorem Descent.oldest_mem_latched (self : Descent Key Value) :
 oldest self.page self.pageSet ∈ self.latched := by
 unfold latched
 rw [← cons_append]
 exact mem_append_left _ oldest_mem

variable [LinearOrder Key]

/-- `FindLeaf` may release everything above the page. -/
def Safe (sizes : PageSizes) (tree : BPlusTree Key Value) (operation : Operation Key Value)
 (page : PageId) : Prop :=
 ∃ node, tree.node page = some node ∧
  (if tree.root = some page then operation.safeRoot sizes node
   else operation.safe sizes node) = true

def Settled (sizes : PageSizes) (tree : BPlusTree Key Value) (operation : Operation Key Value)
 (page : PageId) : Prop :=
 ∃ node, tree.node page = some node ∧
  operation.unsettled sizes (tree.root = some page) node = false

namespace Descent

/-- The latched pages are on the path of the operation's key. -/
structure Reaches (descent : Descent Key Value) (tree : BPlusTree Key Value) : Prop where
 descends : Descends tree descent.pageSet descent.page
 path : OnPath tree descent.operation.key descent.page

def AtRoot (self : Descent Key Value) (tree : BPlusTree Key Value) : Prop :=
 self.rootHeld = true ∧ tree.root = some (oldest self.page self.pageSet)

def Anchored (self : Descent Key Value) (sizes : PageSizes) (tree : BPlusTree Key Value) : Prop :=
 self.AtRoot tree ∨ Safe sizes tree self.operation (oldest self.page self.pageSet)

/-- On the way up, where the page of the descent has been changed. -/
def Supported (self : Descent Key Value) (sizes : PageSizes) (tree : BPlusTree Key Value) : Prop :=
 self.AtRoot tree ∨
  match self.pageSet with
  | [] => Settled sizes tree self.operation self.page
  | parent :: above => Safe sizes tree self.operation (oldest parent above)

end Descent

def Thread.Good (sizes : PageSizes) (tree : BPlusTree Key Value) : Thread Key Value → Prop
 | .rootChosen _ page => tree.root = some page
 | .latched descent => descent.Reaches tree ∧ descent.Anchored sizes tree ∧
  (descent.pageSet = [] → tree.root = some descent.page)
 | .releasing descent => OnPath tree descent.operation.key descent.page ∧
  Safe sizes tree descent.operation descent.page
 | .descending descent => descent.Reaches tree ∧ descent.Anchored sizes tree
 | .childChosen descent child => descent.Reaches tree ∧ descent.Anchored sizes tree ∧
  ∃ first rest, tree.node descent.page = some (.inner first rest) ∧
   route descent.operation.key first rest = child
 | .changed descent => descent.Reaches tree ∧ descent.Supported sizes tree
 | .paired descent parent left right => descent.Reaches tree ∧ descent.Supported sizes tree ∧
  (∃ key, descent.operation = .delete key) ∧ (∃ above, descent.pageSet = parent :: above) ∧
  left ∈ descent.latched ∧ right ∈ descent.latched ∧
  (descent.page = left ∨ descent.page = right)
 | .stranded _ => False
 | _ => True

/-! ### Changes by another thread -/

section

variable {sizes : PageSizes} {tree next : BPlusTree Key Value} {pages : List PageId}
 {operation : Operation Key Value} {page : PageId} {descent : Descent Key Value}

theorem Safe.frame (changes : Changes tree next pages) (outside : page ∉ pages)
 (isSafe : Safe sizes tree operation page) : Safe sizes next operation page := by
 obtain ⟨node, found, test⟩ := isSafe
 refine ⟨node, (changes.node page outside).trans found, ?_⟩
 simp only [changes.root page outside]
 exact test

theorem Settled.frame (changes : Changes tree next pages) (outside : page ∉ pages)
 (settled : Settled sizes tree operation page) : Settled sizes next operation page := by
 obtain ⟨node, found, test⟩ := settled
 refine ⟨node, (changes.node page outside).trans found, ?_⟩
 simp only [changes.root page outside]
 exact test

namespace Descent

variable (changes : Changes tree next pages) (apart : ∀ page ∈ pages, page ∉ descent.latched)

include changes apart

theorem Reaches.frame (reaches : descent.Reaches tree) : descent.Reaches next where
 descends := reaches.descends.frame fun _ member =>
  changes.node _ fun inside => apart _ inside (mem_latched_of_pageSet member)
 path := changes.path (fun inside => apart _ inside descent.page_mem_latched) reaches.path

theorem AtRoot.frame (atRoot : descent.AtRoot tree) : descent.AtRoot next :=
 ⟨atRoot.1, (changes.root _ fun inside => apart _ inside descent.oldest_mem_latched).mpr atRoot.2⟩

theorem Anchored.frame (anchored : descent.Anchored sizes tree) : descent.Anchored sizes next :=
 anchored.imp (AtRoot.frame changes apart) (Safe.frame changes fun inside =>
  apart _ inside descent.oldest_mem_latched)

theorem Supported.frame (supported : descent.Supported sizes tree) :
 descent.Supported sizes next := by
 refine supported.imp (AtRoot.frame changes apart) ?_
 intro held
 have outside : oldest descent.page descent.pageSet ∉ pages := fun inside =>
  apart _ inside descent.oldest_mem_latched
 cases pageSet : descent.pageSet with
 | nil =>
  rw [pageSet] at held outside
  exact held.frame changes outside
 | cons parent above =>
  rw [pageSet] at held outside
  exact held.frame changes outside

end Descent

theorem Thread.Good.frame {thread : Thread Key Value} (changes : Changes tree next pages)
 (apart : ∀ page ∈ pages, page ∉ thread.writes)
 (root : thread.writesRoot = true → next.root = tree.root) (good : thread.Good sizes tree) :
 thread.Good sizes next := by
 cases thread with
 | rootChosen operation page => exact (root rfl).trans good
 | latched descent =>
  obtain ⟨reaches, anchored, top⟩ := good
  refine ⟨reaches.frame changes apart, anchored.frame changes apart, ?_⟩
  intro empty
  exact (changes.root _ fun inside => apart _ inside descent.page_mem_latched).mpr (top empty)
 | releasing descent =>
  have outside : descent.page ∉ pages := fun inside =>
   apart _ inside descent.page_mem_latched
  exact ⟨changes.path outside good.1, good.2.frame changes outside⟩
 | descending descent => exact ⟨good.1.frame changes apart, good.2.frame changes apart⟩
 | childChosen descent child =>
  obtain ⟨reaches, anchored, first, rest, inner, chosen⟩ := good
  refine ⟨reaches.frame changes apart, anchored.frame changes apart, first, rest, ?_, chosen⟩
  exact (changes.node _ fun inside => apart _ inside descent.page_mem_latched).trans inner
 | changed descent => exact ⟨good.1.frame changes apart, good.2.frame changes apart⟩
 | paired descent parent left right =>
  exact ⟨good.1.frame changes apart, good.2.1.frame changes apart, good.2.2⟩
 | stranded => exact good
 | _ => trivial

end

/-! ### Latches are taken and given back -/

section

variable {sizes : PageSizes} {tree : BPlusTree Key Value} {descent : Descent Key Value}
 {page : PageId}

theorem Descent.Reaches.not_root (reaches : descent.Reaches tree) (sound : Sound tree)
 {parent : PageId} {above : List PageId} (pageSet : descent.pageSet = parent :: above) :
 tree.root ≠ some descent.page := by
 have descends := reaches.descends
 rw [pageSet] at descends
 exact fun isRoot => sound.rootless isRoot descends.1

theorem safe_of_test {node : BPlusTreePage Key Value} (sound : Sound tree)
 (reaches : descent.Reaches tree) (top : descent.pageSet = [] → tree.root = some descent.page)
 (found : tree.node descent.page = some node)
 (test : (if descent.pageSet.isEmpty then descent.operation.safeRoot sizes node
  else descent.operation.safe sizes node) = true) :
 Safe sizes tree descent.operation descent.page := by
 refine ⟨node, found, ?_⟩
 cases pageSet : descent.pageSet with
 | nil =>
  simp_all
 | cons parent above =>
  rw [pageSet] at test
  rw [if_neg (reaches.not_root sound pageSet)]
  exact test

theorem not_single_of_safe {parent left right : PageId} {merged : BPlusTree Key Value} {key : Key}
 (sound : Sound tree) (isRoot : tree.root = some parent)
 (isSafe : Safe sizes tree (.delete key) parent)
 (merge : tree.coalesce parent left right = some merged) :
 merged.node parent ≠ some (.inner left []) := by
 obtain ⟨node, found, test⟩ := isSafe
 rw [if_pos isRoot] at test
 obtain ⟨parts, merges⟩ := coalesce_merges sound merge
 cases found.symm.trans merges.two.inner
 rw [merges.one.inner]
 intro single
 have large := of_decide_eq_true test
 have empty : parts.before ++ parts.after = [] := (Node.inner.inj (Option.some.inj single)).2
 have size := congrArg List.length empty
 simp only [BPlusTreePage.getSize, length_append, length_cons, length_nil]
  at large size
 omega

theorem Crabs.good {system : System Tid Key Value} {tid : Tid} {before after : Thread Key Value}
 (sound : Sound system.tree) (good : before.Good sizes system.tree)
 (taken : Crabs sizes system tid before after) : after.Good sizes system.tree := by
 cases taken with
 | call | wLockRoot | nothing | unchanged | settled | unlockRoot | unlockPage | leave => trivial
 | fetchRoot isRoot => exact isRoot
 | wLatchRoot => exact ⟨⟨trivial, .root good⟩, .inl ⟨rfl, good⟩, fun _ => good⟩
 | isSafe found test =>
  obtain ⟨reaches, -, top⟩ := good
  exact ⟨reaches.path, safe_of_test sound reaches top found test⟩
 | notSafe => exact ⟨good.1, good.2.1⟩
 | releaseRoot | releasePage => exact good
 | @released descent _ empty =>
  refine ⟨⟨?_, good.1⟩, .inr ?_⟩
  · rw [empty]
    trivial
  · rw [empty]
    exact good.2
 | @fetchChild descent first rest inner =>
  exact ⟨good.1, good.2, first, rest, inner, rfl⟩
 | wLatchChild =>
  obtain ⟨reaches, anchored, first, rest, inner, chosen⟩ := good
  refine ⟨⟨⟨⟨first, rest, inner, ?_⟩, reaches.descends⟩, ?_⟩, anchored, fun empty => ?_⟩
  · exact chosen ▸ route_mem
  · exact chosen ▸ .child reaches.path inner
  · cases empty
 | unlatch => exact ⟨⟨good.1.descends, good.1.path⟩, good.2⟩
 | @wLatchSibling descent node key parent left right sibling above operation _ _ _ pageSet _
  sides =>
  refine ⟨⟨good.1.descends, good.1.path⟩, good.2, ⟨key, operation⟩, ⟨above, pageSet⟩, ?_⟩
  have there : sibling ∈ descent.page :: (descent.pageSet ++ sibling :: descent.others) :=
   mem_cons_of_mem _ (mem_append_right _ mem_cons_self)
  have mine : descent.page ∈ descent.page :: (descent.pageSet ++ sibling :: descent.others) :=
   mem_cons_self
  rcases sides with ⟨isLeft, isRight⟩ | ⟨isRight, isLeft⟩
  · exact ⟨isLeft ▸ mine, isRight ▸ there, .inl isLeft⟩
  · exact ⟨isLeft ▸ there, isRight ▸ mine, .inr isRight⟩
 | @noParent descent node found test empty root =>
  obtain ⟨reaches, atRoot | settled⟩ := good
  · have isRoot := atRoot.2
    rw [empty] at isRoot
    exact root ⟨atRoot.1, isRoot⟩
  · rw [empty] at settled
    obtain ⟨other, otherFound, no⟩ := settled
    simp_all
 | @noRootLatch descent merged parent left right isRoot merge single root =>
  obtain ⟨reaches, supported, ⟨key, operation⟩, ⟨above, pageSet⟩, -⟩ := good
  have descends := reaches.descends
  rw [pageSet] at descends
  rcases supported with atRoot | isSafe
  · cases root.symm.trans atRoot.1
  · rw [pageSet] at isSafe
    cases above with
    | nil =>
     rw [operation] at isSafe
     exact not_single_of_safe sound isRoot isSafe merge single
    | cons higher above => exact sound.rootless isRoot descends.2.1

end

/-! ### The tree changes -/

section

variable {sizes : PageSizes} {tree next : BPlusTree Key Value} {descent : Descent Key Value}
 {page parent left right new : PageId} {above pages : List PageId} {key : Key}

theorem Descent.Reaches.from_parent (reaches : descent.Reaches tree) (sound : Sound tree)
 (pageSet : descent.pageSet = parent :: above) :
 OnPath tree descent.operation.key parent ∧ Descends tree above parent ∧
  ∀ other ∈ above, tree.node other ≠ none ∧ other ≠ parent ∧
   ∀ child, IsChild tree parent child → other ≠ child := by
 have descends := reaches.descends
 rw [pageSet] at descends
 obtain ⟨⟨first, rest, inner, member⟩, higher⟩ := descends
 have path := (sound.up inner member reaches.path).1
 refine ⟨path, higher, fun other inside => ⟨?_, ?_, ?_⟩⟩
 · exact higher.node inside
 · exact fun same => sound.not_above path higher (same ▸ inside)
 · exact fun child isChild same => sound.child_not_above path higher isChild (same ▸ inside)

theorem Descent.Reaches.up (reaches : descent.Reaches tree) (sound : Sound tree)
 (pageSet : descent.pageSet = parent :: above) (changes : Changes tree next pages)
 (outside : ∀ other ∈ above, other ∉ pages)
 (path : OnPath next descent.operation.key parent) : (descent.up parent above).Reaches next where
 descends := (reaches.from_parent sound pageSet).2.1.frame fun other inside =>
  changes.node other (outside other inside)
 path := path

theorem Descent.Supported.up (supported : descent.Supported sizes tree)
 (pageSet : descent.pageSet = parent :: above) (changes : Changes tree next pages)
 (outside : ∀ other ∈ above, other ∉ pages) (root : next.root = tree.root)
 (settles : Safe sizes tree descent.operation parent →
  Settled sizes next descent.operation parent) :
 (descent.up parent above).Supported sizes next := by
 rcases supported with ⟨held, isRoot⟩ | isSafe
 · rw [pageSet] at isRoot
   exact .inl ⟨held, root.trans isRoot⟩
 · rw [pageSet] at isSafe
   refine .inr ?_
   cases above with
   | nil => exact settles isSafe
   | cons higher above => exact isSafe.frame changes (outside _ oldest_mem)

theorem settled_of_split {value : Value} {parts : Parts Key Value PageId}
 (splits : Splits tree next parent page new parts)
 (isSafe : Safe sizes tree (.insert key value) parent) :
 Settled sizes next (.insert key value) parent := by
 obtain ⟨node, found, test⟩ := isSafe
 cases found.symm.trans splits.one.inner
 refine ⟨_, splits.two.inner, decide_eq_false ?_⟩
 have room : (parts.before ++ parts.after).length + 1 < sizes.internalMaxSize := by
  simpa [safeRoot, safe] using test
 grind

theorem settled_of_merge {parts : Parts Key Value PageId}
 (merges : Merges tree next parent left right parts)
 (isSafe : Safe sizes tree (.delete key) parent) : Settled sizes next (.delete key) parent := by
 obtain ⟨node, found, test⟩ := isSafe
 cases found.symm.trans merges.two.inner
 refine ⟨_, merges.one.inner, ?_⟩
 rw [merges.outside.root]
 by_cases isRoot : tree.root = some parent
 · simp [unsettled, isRoot]
 · rw [if_neg isRoot] at test
   have spare := of_decide_eq_true test
   simp only [unsettled, underflows, isRoot, decide_false,
    BPlusTreePage.getSize, BPlusTreePage.getMinSize, length_append, length_cons]
    at spare ⊢
   exact decide_eq_false (by omega)

/-- What a writer may change with the latches that it has. -/
structure WriteEffect (sizes : PageSizes) (tree : BPlusTree Key Value) (new : PageId)
 (before : Thread Key Value) (next : BPlusTree Key Value) (newer : PageId)
 (after : Thread Key Value) : Prop where
 changes : ∃ pages, Changes tree next pages ∧
  ∀ page ∈ pages, page ∈ before.writes ∨ new ≤ page ∧ page < newer
 root : next.root = tree.root ∨ before.writesRoot = true
 good : after.Good sizes next

variable {before after : Thread Key Value}

theorem WriteEffect.of_split {value : Value} {position : ℕ} (sound : Sound tree)
 (fresh : tree.node new = none) (good : (Thread.changed descent).Good sizes tree)
 (operation : descent.operation = .insert key value)
 (pageSet : descent.pageSet = parent :: above)
 (isSplit : tree.split parent descent.page new position = some next) :
 WriteEffect sizes tree new (.changed descent) next (new + 1)
  (.changed (descent.up parent above)) := by
 obtain ⟨reaches, supported⟩ := good
 obtain ⟨parts, splits⟩ := split_splits sound fresh isSplit
 obtain ⟨path, -, apart⟩ := reaches.from_parent sound pageSet
 have changes := splits.changes sound
 have outside : ∀ other ∈ above, other ∉ [parent, descent.page, new] := by
  intro other inside
  obtain ⟨present, notParent, notChild⟩ := apart other inside
  simp only [mem_cons, not_mem_nil, or_false, not_or]
  exact ⟨notParent, notChild _ splits.one.isChild, fun same => present (same ▸ fresh)⟩
 have parentPage : parent ≠ descent.page := fun same =>
  sound.not_self path (same ▸ splits.one.isChild)
 refine ⟨⟨_, changes, ?_⟩, .inl splits.outside.root, ?_, ?_⟩
 · intro page member
   simp only [mem_cons, not_mem_nil, or_false] at member
   rcases member with isParent | isPage | isNew
   · exact .inl (isParent ▸ Descent.mem_latched_of_pageSet (pageSet ▸ mem_cons_self))
   · exact .inl (isPage ▸ descent.page_mem_latched)
   · grind
 · exact reaches.up sound pageSet changes outside ((splits.path sound path).1 parentPage)
 · refine supported.up pageSet changes outside splits.outside.root ?_
   rw [operation]
   exact settled_of_split splits

theorem latched_of_paired (good : (Thread.paired descent parent left right).Good sizes tree)
 (member : page ∈ [parent, left, right]) : page ∈ descent.latched := by
 obtain ⟨-, -, -, ⟨above, pageSet⟩, isLeft, isRight, -⟩ := good
 simp only [mem_cons, not_mem_nil, or_false] at member
 rcases member with same | same | same
 · exact same ▸ Descent.mem_latched_of_pageSet (pageSet ▸ mem_cons_self)
 · exact same ▸ isLeft
 · exact same ▸ isRight

variable (sound : Sound tree)
include sound

theorem WriteEffect.of_coalesce (good : (Thread.paired descent parent left right).Good sizes tree)
 (pageSet : descent.pageSet = parent :: above)
 (merge : tree.coalesce parent left right = some next) :
 WriteEffect sizes tree new (.paired descent parent left right) next new
  (.changed (descent.up parent above)) := by
 have latched {page : PageId} : page ∈ [parent, left, right] → page ∈ descent.latched :=
  latched_of_paired good
 obtain ⟨reaches, supported, ⟨key, operation⟩, -⟩ := good
 obtain ⟨parts, merges⟩ := coalesce_merges sound merge
 obtain ⟨path, -, apart⟩ := reaches.from_parent sound pageSet
 have changes := merges.changes sound
 have outside : ∀ other ∈ above, other ∉ [parent, left, right] := by
  intro other inside
  obtain ⟨-, notParent, notChild⟩ := apart other inside
  simp only [mem_cons, not_mem_nil, or_false, not_or]
  exact ⟨notParent, notChild _ merges.two.isChild, notChild _ merges.two.isChild_right⟩
 obtain ⟨parentLeft, parentRight⟩ := merges.two.parent_ne sound
 refine ⟨⟨_, changes, fun page member => .inl (latched member)⟩, .inl merges.outside.root, ?_,
  ?_⟩
 · exact reaches.up sound pageSet changes outside
    ((merges.path sound path).1 parentLeft parentRight)
 · refine supported.up pageSet changes outside merges.outside.root ?_
   rw [operation]
   exact settled_of_merge merges

theorem WriteEffect.of_adjustRoot {merged : BPlusTree Key Value}
 (good : (Thread.paired descent parent left right).Good sizes tree)
 (isRoot : tree.root = some parent) (merge : tree.coalesce parent left right = some merged)
 (single : merged.node parent = some (.inner left [])) (root : descent.rootHeld = true) :
 WriteEffect sizes tree new (.paired descent parent left right)
  (merged.adjustRoot parent left) new (.finishing descent.rootHeld descent.latched) := by
 obtain ⟨parts, merges⟩ := coalesce_merges sound merge
 have changes := merges.changes sound
 have adjusts := adjustRoot_changes changes.sound
  (merges.outside.root.trans isRoot) single
 refine ⟨⟨_, changes.trans (adjusts.mono ?_), fun page member => ?_⟩, .inr root, trivial⟩
 · simp
 · exact .inl (latched_of_paired good member)

theorem WriteEffect.of_leaf {entries others : List (Key × Value)}
 (good : (Thread.descending descent).Good sizes tree)
 (leaf : tree.node descent.page = some (.leaf entries))
 (apply : descent.operation.apply entries = some others) :
 WriteEffect sizes tree new (.descending descent) (tree.setPage descent.page (.leaf others)) new
  (.changed descent) := by
 obtain ⟨reaches, anchored⟩ := good
 have edits : Edits tree (tree.setPage descent.page (.leaf others)) descent.page entries others :=
  ⟨rfl, leaf, setPage_node_same, fun _ outside =>
   setPage_node_other outside⟩
 have placed : ∀ entry ∈ others, OnPath tree entry.1 descent.page := by
  intro entry member
  rcases apply_mem apply member with old | new
  · exact sound.placed leaf entry old
  · exact new ▸ reaches.path
 have sorted := sound.sorted leaf
 have changes := edits.changes sound (apply_increasing sorted apply) placed
 have outside : ∀ other ∈ descent.pageSet, other ∉ [descent.page] := by
  intro other inside same
  rw [mem_singleton.mp same] at inside
  exact sound.not_above reaches.path reaches.descends inside
 refine ⟨⟨_, changes, fun page member => .inl ?_⟩, .inl rfl, ⟨?_, edits.path reaches.path⟩, ?_⟩
 · rw [mem_singleton.mp member]
   exact descent.page_mem_latched
 · exact reaches.descends.frame fun other inside => changes.node other (outside other inside)
 · refine anchored.imp id fun isSafe => ?_
   cases pageSet : descent.pageSet with
   | nil =>
    rw [pageSet] at isSafe
    obtain ⟨node, found, test⟩ := isSafe
    cases found.symm.trans leaf
    refine ⟨_, setPage_node_same, ?_⟩
    refine apply_settled sorted apply ?_
    rw [oldest] at test
    by_cases isRoot : tree.root = some descent.page
    · simpa [isRoot] using test
    · simpa [isRoot] using test
   | cons parent above =>
    rw [pageSet] at isSafe outside
    exact isSafe.frame changes (outside _ oldest_mem)

theorem Writes.effect {newer : PageId} (fresh : ∀ page, new ≤ page → tree.node page = none)
 (good : before.Good sizes tree) (taken : Writes sizes tree new before next newer after) :
 WriteEffect sizes tree new before next newer after := by
 cases taken with
 | @startNewTree key value empty =>
  have plants : Plants tree ((tree.setPage new (.leaf [(key, value)])).setRoot (some new)) new
   (key, value) :=
   { empty := empty
     fresh := fresh new (Int.le_refl new)
     isRoot := rfl
     leaf := setPage_node_same
     outside := fun _ outside => setPage_node_other outside }
  refine ⟨⟨_, plants.changes sound, fun page member => .inr ?_⟩, .inr rfl, trivial⟩
  grind
 | changeLeaf leaf apply => exact .of_leaf sound good leaf apply
 | split operation _ _ pageSet isSplit =>
  exact .of_split sound (fresh new (Int.le_refl new)) good operation pageSet isSplit
 | @splitRoot descent _ _ _ _ _ _ _ _ root isRoot isSplit =>
  have above : new < new + 1 := Int.lt_succ new
  have changes := splitRoot_changes sound isRoot (fresh new (Int.le_refl new))
   (fresh (new + 1) (Int.le_of_lt above)) (Int.ne_of_gt above) isSplit
  refine ⟨⟨_, changes, fun page member => ?_⟩, .inr root, trivial⟩
  simp only [mem_cons, not_mem_nil, or_false] at member
  rcases member with isRoot | isPage | isNew
  · grind
  · exact .inl (isPage ▸ descent.page_mem_latched)
  · grind
 | @clear descent key operation leaf root isRoot =>
  have clears : Clears tree ((tree.deletePage descent.page).setRoot none) descent.page :=
   { old := isRoot
     leaf := leaf
     empty := rfl
     gone := deletePage_node_same
     outside := fun _ outside => deletePage_node_other outside }
  refine ⟨⟨_, clears.changes sound, fun page member => .inl ?_⟩, .inr root, trivial⟩
  rw [mem_singleton.mp member]
  exact descent.page_mem_latched
 | redistribute _ _ _ move =>
  obtain ⟨changes, root⟩ := redistribute_changes sound move
  exact ⟨⟨_, changes, fun page member => .inl (latched_of_paired good member)⟩, .inl root,
   trivial⟩
 | coalesce _ _ _ pageSet merge => exact .of_coalesce sound good pageSet merge
 | adjustRoot _ _ _ isRoot merge single root =>
  exact .of_adjustRoot sound good isRoot merge single root

end

end MyNotes.Cmu15445
