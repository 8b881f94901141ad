/-
Changes of a paged tree, and the pages that each touches.

Next to splits and merges the root can get a page above it or leave its place to its only
child, a tree gets its first leaf or loses its last, and a leaf gets other entries.
-/

import MyNotes.Library.PagedTreeSplit

namespace MyNotes.Library.PagedTree

open List Option

variable {Key Value Page : Type*} {key : Key} {first page child parent root new : Page}
 {rest : List (Key × Page)} {entries others : List (Key × Value)} {entry : Key × Value}
 {tree next : Tree Key Value Page}

/-! ### Page by page -/

section Outside

variable {node put : Node Key Value Page}
 (outside : ∀ page, page ≠ new → next.node page = tree.node page)

include outside

theorem kept_of_fresh (fresh : tree.node new = none) (found : tree.node page = some node) :
 next.node page = some node := by
 grind

theorem cases_of_put (isPut : next.node new = some put) (found : next.node page = some node) :
 (page = new ∧ node = put) ∨ tree.node page = some node := by
 by_cases isNew : page = new
 · simp_all
 · simp_all

theorem cases_of_gone (gone : next.node new = none) (found : next.node page = some node) :
 page ≠ new ∧ tree.node page = some node := by
 have different : page ≠ new := by
  intro same
  cases (same ▸ found).symm.trans gone
 simp_all

end Outside

structure Grows (tree next : Tree Key Value Page) (root new : Page) : Prop where
 old : tree.root = some root
 fresh : tree.node new = none
 isRoot : next.root = some new
 inner : next.node new = some (.inner root [])
 outside : ∀ page, page ≠ new → next.node page = tree.node page

theorem Grows.kept (grows : Grows tree next root new) {node : Node Key Value Page}
 (found : tree.node page = some node) : next.node page = some node :=
 kept_of_fresh grows.outside grows.fresh found

theorem Grows.cases (grows : Grows tree next root new) {node : Node Key Value Page}
 (found : next.node page = some node) :
 (page = new ∧ node = .inner root []) ∨ tree.node page = some node :=
 cases_of_put grows.outside grows.inner found

theorem Grows.isChild (grows : Grows tree next root new) (isChild : IsChild next parent child) :
 (parent = new ∧ child = root) ∨ IsChild tree parent child := by
 obtain ⟨first, rest, inner, member⟩ := isChild
 rcases grows.cases inner with ⟨isNew, same⟩ | found
 · cases same
   exact .inl ⟨isNew, mem_singleton.mp member⟩
 · exact .inr ⟨first, rest, found, member⟩

structure Shrinks (tree next : Tree Key Value Page) (root child : Page) : Prop where
 old : tree.root = some root
 inner : tree.node root = some (.inner child [])
 isRoot : next.root = some child
 gone : next.node root = none
 outside : ∀ page, page ≠ root → next.node page = tree.node page

theorem Shrinks.isChild_root (shrinks : Shrinks tree next root child) :
 IsChild tree root child := ⟨child, [], shrinks.inner, mem_singleton_self child⟩

theorem Shrinks.cases (shrinks : Shrinks tree next root child) {node : Node Key Value Page}
 (found : next.node page = some node) : page ≠ root ∧ tree.node page = some node :=
 cases_of_gone shrinks.outside shrinks.gone found

theorem Shrinks.isChild (shrinks : Shrinks tree next root child) {below : Page}
 (isChild : IsChild next parent below) : parent ≠ root ∧ IsChild tree parent below := by
 obtain ⟨first, rest, inner, member⟩ := isChild
 obtain ⟨different, found⟩ := shrinks.cases inner
 exact ⟨different, first, rest, found, member⟩

structure Plants (tree next : Tree Key Value Page) (new : Page) (entry : Key × Value) : Prop where
 empty : tree.root = none
 fresh : tree.node new = none
 isRoot : next.root = some new
 leaf : next.node new = some (.leaf [entry])
 outside : ∀ page, page ≠ new → next.node page = tree.node page

section

variable (plants : Plants tree next new entry)
include plants

theorem Plants.kept {node : Node Key Value Page} (found : tree.node page = some node) :
 next.node page = some node :=
 kept_of_fresh plants.outside plants.fresh found

theorem Plants.cases {node : Node Key Value Page} (found : next.node page = some node) :
 (page = new ∧ node = .leaf [entry]) ∨ tree.node page = some node :=
 cases_of_put plants.outside plants.leaf found

theorem Plants.inner (found : next.node page = some (.inner first rest)) :
 tree.node page = some (.inner first rest) := by
 rcases plants.cases found with ⟨-, same⟩ | old
 · cases same
 · exact old

theorem Plants.isChild (isChild : IsChild next parent child) : IsChild tree parent child := by
 obtain ⟨first, rest, inner, member⟩ := isChild
 exact ⟨first, rest, plants.inner inner, member⟩

end

structure Clears (tree next : Tree Key Value Page) (root : Page) : Prop where
 old : tree.root = some root
 leaf : tree.node root = some (.leaf [])
 empty : next.root = none
 gone : next.node root = none
 outside : ∀ page, page ≠ root → next.node page = tree.node page

theorem Clears.cases (clears : Clears tree next root) {node : Node Key Value Page}
 (found : next.node page = some node) : page ≠ root ∧ tree.node page = some node :=
 cases_of_gone clears.outside clears.gone found

theorem Clears.isChild (clears : Clears tree next root)
 (isChild : IsChild next parent child) : IsChild tree parent child := by
 obtain ⟨first, rest, inner, member⟩ := isChild
 exact ⟨first, rest, (clears.cases inner).2, member⟩

structure Edits (tree next : Tree Key Value Page) (page : Page)
 (entries others : List (Key × Value)) : Prop where
 isRoot : next.root = tree.root
 leaf : tree.node page = some (.leaf entries)
 edited : next.node page = some (.leaf others)
 outside : ∀ other, other ≠ page → next.node other = tree.node other

theorem Edits.kept (edits : Edits tree next page entries others)
 (inner : tree.node parent = some (.inner first rest)) :
 next.node parent = some (.inner first rest) := by
 refine (edits.outside parent ?_).trans inner
 intro same
 cases (same ▸ inner).symm.trans edits.leaf

variable {other : Page}

section

variable (edits : Edits tree next page entries others)
include edits

theorem Edits.cases {node : Node Key Value Page} (found : next.node other = some node) :
 (other = page ∧ node = .leaf others) ∨ tree.node other = some node :=
 cases_of_put edits.outside edits.edited found

theorem Edits.inner (found : next.node other = some (.inner first rest)) :
 tree.node other = some (.inner first rest) := by
 rcases edits.cases found with ⟨-, same⟩ | old
 · cases same
 · exact old

theorem Edits.isChild (isChild : IsChild next parent child) : IsChild tree parent child := by
 obtain ⟨first, rest, inner, member⟩ := isChild
 exact ⟨first, rest, edits.inner inner, member⟩

theorem Edits.node (found : tree.node other ≠ none) : next.node other ≠ none := by
 by_cases isPage : other = page
 · rw [isPage, edits.edited]
   exact some_ne_none _
 · rw [edits.outside other isPage]
   exact found

end

/-! ### Paths and soundness -/

variable [LinearOrder Key]

theorem OnPath.mono (isRoot : next.root = tree.root)
 (kept : ∀ {above first rest}, tree.node above = some (.inner first rest) →
  next.node above = some (.inner first rest)) (path : OnPath tree key page) :
 OnPath next key page := by
 induction path with
 | root same => exact .root (isRoot.trans same)
 | child above inner ih => exact .child ih (kept inner)

theorem Grows.path (grows : Grows tree next root new) (path : OnPath tree key page) :
 OnPath next key page := by
 induction path with
 | root isRoot =>
  cases isRoot.symm.trans grows.old
  exact .child (.root grows.isRoot) grows.inner
 | child above inner ih => exact .child ih (grows.kept inner)

theorem Grows.next_sound (grows : Grows tree next root new) (sound : Sound tree) :
 Sound next where
 increasing inner := by
  rcases grows.cases inner with ⟨-, same⟩ | found
  · cases same
    exact .nil
  · exact sound.increasing found
 nodup inner := by
  rcases grows.cases inner with ⟨-, same⟩ | found
  · cases same
    exact nodup_singleton root
  · exact sound.nodup found
 sorted leaf := by
  rcases grows.cases leaf with ⟨-, same⟩ | found
  · cases same
  · exact sound.sorted found
 covered inner entry member := by
  rcases grows.cases inner with ⟨-, same⟩ | found
  · cases same
    cases member
  · obtain ⟨here, key, below, lower⟩ := sound.covered found entry member
    exact ⟨grows.path here, key, below, grows.path lower⟩
 placed leaf entry member := by
  rcases grows.cases leaf with ⟨-, same⟩ | found
  · cases same
  · exact grows.path (sound.placed found entry member)
 parent left right := by
  rcases grows.isChild left with ⟨leftNew, isRoot⟩ | leftOld
  · rcases grows.isChild right with ⟨rightNew, -⟩ | rightOld
    · exact leftNew.trans rightNew.symm
    · exact absurd (isRoot ▸ rightOld) (sound.rootless grows.old)
  · rcases grows.isChild right with ⟨-, isRoot⟩ | rightOld
    · exact absurd (isRoot ▸ leftOld) (sound.rootless grows.old)
    · exact sound.parent leftOld rightOld
 rootless isRoot isChild := by
  cases isRoot.symm.trans grows.isRoot
  rcases grows.isChild isChild with ⟨-, same⟩ | old
  · exact sound.rooted grows.old (same ▸ grows.fresh)
  · exact sound.present old grows.fresh
 rooted isRoot := by
  cases isRoot.symm.trans grows.isRoot
  rw [grows.inner]
  exact some_ne_none _
 present isChild := by
  have kept {page : Page} (found : tree.node page ≠ none) : next.node page ≠ none := by
   obtain ⟨node, isNode⟩ := ne_none_iff_exists'.mp found
   rw [grows.kept isNode]
   exact some_ne_none _
  rcases grows.isChild isChild with ⟨-, same⟩ | old
  · exact same ▸ kept (sound.rooted grows.old)
  · exact kept (sound.present old)

theorem Shrinks.path (shrinks : Shrinks tree next root child) (path : OnPath tree key page) :
 page ≠ root → OnPath next key page := by
 induction path with
 | root isRoot =>
  intro different
  exact absurd (Option.some.inj (isRoot.symm.trans shrinks.old)) different
 | @child above first rest path inner ih =>
  intro _
  by_cases atRoot : above = root
  · subst atRoot
    cases inner.symm.trans shrinks.inner
    exact .root shrinks.isRoot
  · exact .child (ih atRoot) ((shrinks.outside above atRoot).trans inner)

theorem Shrinks.next_sound (shrinks : Shrinks tree next root child) (sound : Sound tree) :
 Sound next where
 increasing inner := sound.increasing (shrinks.cases inner).2
 nodup inner := sound.nodup (shrinks.cases inner).2
 sorted leaf := sound.sorted (shrinks.cases leaf).2
 covered inner entry member := by
  obtain ⟨different, found⟩ := shrinks.cases inner
  obtain ⟨here, key, below, lower⟩ := sound.covered found entry member
  exact ⟨shrinks.path here different, key, below, shrinks.path lower different⟩
 placed leaf entry member := by
  obtain ⟨different, found⟩ := shrinks.cases leaf
  exact shrinks.path (sound.placed found entry member) different
 parent left right := sound.parent (shrinks.isChild left).2 (shrinks.isChild right).2
 rootless isRoot isChild := by
  cases isRoot.symm.trans shrinks.isRoot
  obtain ⟨different, old⟩ := shrinks.isChild isChild
  exact different (sound.parent old shrinks.isChild_root)
 rooted isRoot := by
  cases isRoot.symm.trans shrinks.isRoot
  have different : child ≠ root := fun same =>
   sound.rootless shrinks.old (same ▸ shrinks.isChild_root)
  rw [shrinks.outside child different]
  exact sound.present shrinks.isChild_root
 present isChild := by
  obtain ⟨-, old⟩ := shrinks.isChild isChild
  rw [shrinks.outside _ fun same => sound.rootless shrinks.old (same ▸ old)]
  exact sound.present old

theorem not_onPath_of_empty (empty : tree.root = none) : ¬ OnPath tree key page := by
 intro path
 induction path with
 | root isRoot => cases isRoot.symm.trans empty
 | child _ _ ih => exact ih

theorem Plants.next_sound (plants : Plants tree next new entry)
 (sound : Sound tree) : Sound next where
 increasing inner := sound.increasing (plants.inner inner)
 nodup inner := sound.nodup (plants.inner inner)
 sorted leaf := by
  rcases plants.cases leaf with ⟨-, same⟩ | found
  · cases same
    exact pairwise_singleton _ _
  · exact sound.sorted found
 covered inner entry member :=
  (not_onPath_of_empty plants.empty (sound.covered (plants.inner inner) entry member).1).elim
 placed leaf other member := by
  rcases plants.cases leaf with ⟨isNew, -⟩ | found
  · exact .root (plants.isRoot.trans (congrArg some isNew.symm))
  · exact (not_onPath_of_empty plants.empty (sound.placed found other member)).elim
 parent left right := sound.parent (plants.isChild left) (plants.isChild right)
 rootless isRoot isChild := by
  cases isRoot.symm.trans plants.isRoot
  exact sound.present (plants.isChild isChild) plants.fresh
 rooted isRoot := by
  cases isRoot.symm.trans plants.isRoot
  rw [plants.leaf]
  exact some_ne_none _
 present isChild := by
  obtain ⟨node, found⟩ := ne_none_iff_exists'.mp
   (sound.present (plants.isChild isChild))
  rw [plants.kept found]
  exact some_ne_none _

theorem OnPath.eq_of_leaf (isRoot : tree.root = some root)
 (leaf : tree.node root = some (.leaf entries)) (path : OnPath tree key page) :
 page = root := by
 induction path with
 | root same => exact Option.some.inj (same.symm.trans isRoot)
 | child _ inner ih => cases (ih ▸ inner).symm.trans leaf

theorem Clears.next_sound (clears : Clears tree next root) (sound : Sound tree) :
 Sound next where
 increasing inner := sound.increasing (clears.cases inner).2
 nodup inner := sound.nodup (clears.cases inner).2
 sorted leaf := sound.sorted (clears.cases leaf).2
 covered inner entry member := by
  obtain ⟨different, found⟩ := clears.cases inner
  exact absurd ((sound.covered found entry member).1.eq_of_leaf clears.old clears.leaf) different
 placed leaf entry member := by
  obtain ⟨different, found⟩ := clears.cases leaf
  exact absurd ((sound.placed found entry member).eq_of_leaf clears.old clears.leaf) different
 parent left right := sound.parent (clears.isChild left) (clears.isChild right)
 rootless isRoot := by cases isRoot.symm.trans clears.empty
 rooted isRoot := by cases isRoot.symm.trans clears.empty
 present isChild := by
  have old := clears.isChild isChild
  rw [clears.outside _ fun same => sound.rootless clears.old (same ▸ old)]
  exact sound.present old

theorem Edits.path (edits : Edits tree next page entries others) {visited : Page}
 (path : OnPath tree key visited) : OnPath next key visited :=
 path.mono edits.isRoot edits.kept

theorem Edits.next_sound (edits : Edits tree next page entries others) (sound : Sound tree)
 (sorted : Increasing others) (placed : ∀ entry ∈ others, OnPath tree entry.1 page) :
 Sound next where
 increasing inner := sound.increasing (edits.inner inner)
 nodup inner := sound.nodup (edits.inner inner)
 sorted leaf := by
  rcases edits.cases leaf with ⟨-, same⟩ | found
  · cases same
    exact sorted
  · exact sound.sorted found
 covered inner entry member := by
  obtain ⟨here, key, below, lower⟩ := sound.covered (edits.inner inner) entry member
  exact ⟨edits.path here, key, below, edits.path lower⟩
 placed leaf entry member := by
  rcases edits.cases leaf with ⟨isPage, same⟩ | found
  · cases same
    exact isPage ▸ edits.path (placed entry member)
  · exact edits.path (sound.placed found entry member)
 parent left right := sound.parent (edits.isChild left) (edits.isChild right)
 rootless isRoot isChild :=
  sound.rootless (edits.isRoot.symm.trans isRoot) (edits.isChild isChild)
 rooted isRoot := edits.node (sound.rooted (edits.isRoot.symm.trans isRoot))
 present isChild := edits.node (sound.present (edits.isChild isChild))

/-! ### Changes and the pages they touch -/

/-- A change of some pages: elsewhere pages, the paths to them and the root are as before. -/
structure Changes (tree next : Tree Key Value Page) (pages : List Page) : Prop where
 sound : Sound next
 node : ∀ page ∉ pages, next.node page = tree.node page
 path : ∀ {key page}, page ∉ pages → OnPath tree key page → OnPath next key page
 root : ∀ page ∉ pages, next.root = some page ↔ tree.root = some page

theorem Changes.trans {last : Tree Key Value Page} {pages : List Page}
 (first : Changes tree next pages) (second : Changes next last pages) :
 Changes tree last pages where
 sound := second.sound
 node page outside := (second.node page outside).trans (first.node page outside)
 path outside path := second.path outside (first.path outside path)
 root page outside := (second.root page outside).trans (first.root page outside)

theorem Changes.mono {pages more : List Page} (changes : Changes tree next pages)
 (subset : pages ⊆ more) : Changes tree next more where
 sound := changes.sound
 node page outside := changes.node page fun member => outside (subset member)
 path outside path := changes.path (fun member => outside (subset member)) path
 root page outside := changes.root page fun member => outside (subset member)

theorem Splits.changes {parts : Parts Key Value Page} (sound : Sound tree)
 (splits : Splits tree next parent page new parts) :
 Changes tree next [parent, page, new] where
 sound := splits.next_sound sound
 node := splits.outside.node
 path outside path := by
  simp only [mem_cons, not_mem_nil, or_false, not_or] at outside
  exact (splits.path sound path).1 outside.2.1
 root page _ := by rw [splits.outside.root]

theorem Merges.changes {parts : Parts Key Value Page} (sound : Sound tree)
 (merges : Merges tree next parent page new parts) :
 Changes tree next [parent, page, new] where
 sound := merges.next_sound sound
 node := merges.outside.node
 path outside path := by
  simp only [mem_cons, not_mem_nil, or_false, not_or] at outside
  exact (merges.path sound path).1 outside.2.1 outside.2.2
 root page _ := by rw [merges.outside.root]

theorem Grows.changes (sound : Sound tree) (grows : Grows tree next root new) :
 Changes tree next [root, new] where
 sound := grows.next_sound sound
 node page outside := grows.outside page fun same => outside (same ▸ by simp)
 path _ path := grows.path path
 root page outside := by
  rw [grows.isRoot, grows.old, some_inj, some_inj]
  grind

theorem Shrinks.changes (sound : Sound tree) (shrinks : Shrinks tree next root child) :
 Changes tree next [root, child] where
 sound := shrinks.next_sound sound
 node page outside := shrinks.outside page fun same => outside (same ▸ by simp)
 path outside path := by
  simp only [mem_cons, not_mem_nil, or_false, not_or] at outside
  exact shrinks.path path outside.1
 root page outside := by
  rw [shrinks.isRoot, shrinks.old, some_inj, some_inj]
  grind

theorem Plants.changes (sound : Sound tree)
 (plants : Plants tree next new entry) : Changes tree next [new] where
 sound := plants.next_sound sound
 node page outside := plants.outside page fun same => outside (same ▸ by simp)
 path _ path := (not_onPath_of_empty plants.empty path).elim
 root page outside := by
  rw [plants.isRoot, plants.empty, some_inj]
  exact iff_of_false (fun same => outside (same ▸ by simp)) (some_ne_none _).symm

theorem Clears.changes (sound : Sound tree) (clears : Clears tree next root) :
 Changes tree next [root] where
 sound := clears.next_sound sound
 node page outside := clears.outside page fun same => outside (same ▸ by simp)
 path outside path := by
  rw [path.eq_of_leaf clears.old clears.leaf] at outside
  simp_all
 root page outside := by
  rw [clears.empty, clears.old, some_inj]
  exact iff_of_false (some_ne_none _).symm fun same => outside (same ▸ by simp)

theorem Edits.changes (edits : Edits tree next page entries others) (sound : Sound tree)
 (sorted : Increasing others) (placed : ∀ entry ∈ others, OnPath tree entry.1 page) :
 Changes tree next [page] where
 sound := edits.next_sound sound sorted placed
 node other outside := edits.outside other fun same => outside (same ▸ by simp)
 path _ path := edits.path path
 root other _ := by rw [edits.isRoot]

end MyNotes.Library.PagedTree
