/-
Splitting a page of a paged tree, and merging it with its right neighbour.

Both replace one child of a parent by two, or two by one.  Paths that do not visit the
pages concerned stay as they are, and the tree stays sound.
-/

import Mathlib.Data.List.Nodup
import MyNotes.Library.PagedTree

namespace MyNotes.Library.PagedTree

open List Option

variable {Key Value Page : Type*} [LinearOrder Key] {key separator : Key}
 {first page child parent : Page} {before after rest : List (Key × Page)}
 {tree next : Tree Key Value Page}

/-! ### Two neighbours and the page that they make together -/

inductive Cut : Node Key Value Page → Node Key Value Page → Key → Node Key Value Page → Prop
 | leaf {lower upper : List (Key × Value)} {separator : Key}
  (below : ∀ entry ∈ lower, entry.1 < separator)
  (above : ∀ entry ∈ upper, separator ≤ entry.1) :
  Cut (.leaf (lower ++ upper)) (.leaf lower) separator (.leaf upper)
 | inner (first : Page) (lower : List (Key × Page)) (separator : Key) (child : Page)
  (upper : List (Key × Page)) :
  Cut (.inner first (lower ++ (separator, child) :: upper)) (.inner first lower) separator
   (.inner child upper)

theorem Cut.of_inner {left right : Node Key Value Page}
 (cut : Cut (.inner first rest) left separator right) :
 ∃ lower child upper, rest = lower ++ (separator, child) :: upper ∧
  left = .inner first lower ∧ right = .inner child upper := by
 cases cut with
 | inner first lower separator child upper => exact ⟨lower, child, upper, rfl, rfl, rfl⟩

variable {whole : Node Key Value Page}

theorem Cut.of_left_inner {right : Node Key Value Page}
 (cut : Cut whole (.inner first rest) separator right) : ∃ child upper,
  whole = .inner first (rest ++ (separator, child) :: upper) ∧ right = .inner child upper := by
 cases cut with
 | inner first lower separator child upper => exact ⟨child, upper, rfl, rfl⟩

theorem Cut.of_right_inner {left : Node Key Value Page}
 (cut : Cut whole left separator (.inner child rest)) : ∃ first lower,
  whole = .inner first (lower ++ (separator, child) :: rest) ∧ left = .inner first lower := by
 cases cut with
 | inner first lower separator child upper => exact ⟨first, lower, rfl, rfl⟩

variable {entries : List (Key × Value)}

theorem Cut.of_leaf {left right : Node Key Value Page}
 (cut : Cut (.leaf entries) left separator right) :
 ∃ lower upper, entries = lower ++ upper ∧ left = .leaf lower ∧ right = .leaf upper ∧
  (∀ entry ∈ lower, entry.1 < separator) ∧ ∀ entry ∈ upper, separator ≤ entry.1 := by
 cases cut with
 | leaf below above => exact ⟨_, _, rfl, rfl, rfl, below, above⟩

theorem Cut.of_left_leaf {lower : List (Key × Value)} {right : Node Key Value Page}
 (cut : Cut whole (.leaf lower) separator right) :
 ∃ upper, whole = .leaf (lower ++ upper) ∧ right = .leaf upper ∧
  (∀ entry ∈ lower, entry.1 < separator) ∧ ∀ entry ∈ upper, separator ≤ entry.1 := by
 cases cut with
 | leaf below above => exact ⟨_, rfl, rfl, below, above⟩

theorem Cut.of_right_leaf {upper : List (Key × Value)} {left : Node Key Value Page}
 (cut : Cut whole left separator (.leaf upper)) :
 ∃ lower, whole = .leaf (lower ++ upper) ∧ left = .leaf lower ∧
  (∀ entry ∈ lower, entry.1 < separator) ∧ ∀ entry ∈ upper, separator ≤ entry.1 := by
 cases cut with
 | leaf below above => exact ⟨_, rfl, rfl, below, above⟩

/-- The pieces of a page, and of its parent around it. -/
structure Parts (Key Value Page : Type*) where
 first : Page
 before : List (Key × Page)
 separator : Key
 after : List (Key × Page)
 whole : Node Key Value Page
 left : Node Key Value Page
 right : Node Key Value Page

structure One (tree : Tree Key Value Page) (parent page : Page) (parts : Parts Key Value Page) :
 Prop where
 cut : Cut parts.whole parts.left parts.separator parts.right
 last : lastChild parts.first parts.before = page
 inner : tree.node parent = some (.inner parts.first (parts.before ++ parts.after))
 found : tree.node page = some parts.whole

structure Two (tree : Tree Key Value Page) (parent page new : Page)
 (parts : Parts Key Value Page) : Prop where
 cut : Cut parts.whole parts.left parts.separator parts.right
 last : lastChild parts.first parts.before = page
 inner : tree.node parent =
  some (.inner parts.first (parts.before ++ (parts.separator, new) :: parts.after))
 left : tree.node page = some parts.left
 right : tree.node new = some parts.right

omit [LinearOrder Key] in
structure SameOutside (tree next : Tree Key Value Page) (pages : List Page) : Prop where
 root : next.root = tree.root
 node : ∀ page ∉ pages, next.node page = tree.node page

section

variable {new : Page} {parts : Parts Key Value Page}

theorem One.isChild (one : One tree parent page parts) : IsChild tree parent page := by
 refine ⟨_, _, one.inner, ?_⟩
 rw [children_append, ← one.last]
 exact mem_append_left _ lastChild_mem

theorem Two.isChild (two : Two tree parent page new parts) : IsChild tree parent page := by
 refine ⟨_, _, two.inner, ?_⟩
 rw [children_append, ← two.last]
 exact mem_append_left _ lastChild_mem

theorem Two.isChild_right (two : Two tree parent page new parts) : IsChild tree parent new := by
 refine ⟨_, _, two.inner, ?_⟩
 rw [children_append]
 simp

variable {upper : List (Key × Page)}

theorem route_cut_left {lower : List (Key × Page)} (below : key < separator) :
 route key first (lower ++ (separator, child) :: upper) = route key first lower := by
 by_cases passes : Passes key lower
 · have whole : route key first (lower ++ []) = route key (lastChild first lower) [] :=
    route_append_of_passes passes
   rw [append_nil] at whole
   rw [route_append_of_passes passes, whole]
   exact if_pos below
 · rw [route_append_of_not_passes passes [], append_nil]

theorem route_cut_right {lower : List (Key × Page)} (above : separator ≤ key)
 (smaller : ∀ entry ∈ lower, entry.1 < separator) :
 route key first (lower ++ (separator, child) :: upper) = route key child upper := by
 have passes : Passes key lower := fun entry member =>
  le_trans (le_of_lt (smaller entry member)) above
 rw [route_append_of_passes passes]
 exact if_neg (not_lt.mpr above)

theorem Increasing.lower {lower : List (Key × Page)}
 (increasing : Increasing (lower ++ (separator, child) :: upper)) :
 ∀ entry ∈ lower, entry.1 < separator := fun entry member =>
 (pairwise_append.mp increasing).2.2 entry member _ mem_cons_self

theorem Increasing.stops {lower : List (Key × Page)}
 (increasing : Increasing (lower ++ (separator, child) :: upper)) : StopsAt separator upper := by
 intro entry member
 have tail := (pairwise_append.mp increasing).2.1
 exact (pairwise_cons.mp tail).1 entry (mem_of_mem_head? member)

variable {visited : Page}

section

variable (sound : Sound tree)
include sound

theorem split_path (one : One tree parent page parts) (two : Two next parent page new parts)
 (fresh : tree.node new = none) (outside : SameOutside tree next [parent, page, new])
 (through : OnPath tree parts.separator page) (path : OnPath tree key visited) :
 (visited ≠ page → OnPath next key visited) ∧
  (visited = page → if key < parts.separator then OnPath next key page
   else OnPath next key new) := by
 have notRoot {root : Page} (isRoot : tree.root = some root) : root ≠ page := fun same =>
  sound.rootless isRoot (same ▸ one.isChild)
 have loopless := sound.not_self through
 have member : page ∈ children parts.first (parts.before ++ parts.after) := by
  rw [children_append, ← one.last]
  exact mem_append_left _ lastChild_mem
 have separatorRoute := (sound.up one.inner member through).2
 have nodup := sound.nodup one.inner
 have stops := (passes_of_route nodup (separatorRoute.trans one.last.symm)).2
 induction path with
 | root isRoot =>
  refine ⟨fun _ => .root (outside.root.trans isRoot), ?_⟩
  simp_all
 | @child above first rest path inner ih =>
  have visits : IsChild tree above (route key first rest) := ⟨_, _, inner, route_mem⟩
  by_cases atPage : above = page
  · subst atPage
    refine ⟨fun _ => ?_, fun same => absurd (same ▸ visits) loopless⟩
    have goes := ih.2 rfl
    have cut := one.cut
    rw [some.inj (one.found.symm.trans inner)] at cut
    obtain ⟨lower, child, upper, same, left, right⟩ := cut.of_inner
    subst same
    by_cases below : key < parts.separator
    · rw [if_pos below] at goes
      rw [route_cut_left below]
      exact .child goes (left ▸ two.left)
    · rw [if_neg below] at goes
      rw [route_cut_right (not_lt.mp below) (sound.increasing inner).lower]
      exact .child goes (right ▸ two.right)
  · have kept := ih.1 atPage
    by_cases atParent : above = parent
    · subst atParent
      cases inner.symm.trans one.inner
      have down := OnPath.child kept two.inner
      by_cases here : route key parts.first (parts.before ++ parts.after) = page
      · refine ⟨fun different => absurd here different, fun _ => ?_⟩
        rw [route_insert nodup (here.trans one.last.symm), one.last] at down
        split at down
        · simp_all
        · simp_all
      · refine ⟨fun _ => ?_, fun same => absurd same here⟩
        rw [route_insert_elsewhere stops fun same => here (same.trans one.last)] at down
        exact down
    · have notNew : above ≠ new := by
       intro same
       rw [same, fresh] at inner
       cases inner
      have unchanged := outside.node above (by
       simp_all)
      refine ⟨fun _ => .child kept (unchanged.trans inner), ?_⟩
      intro same
      exact absurd (sound.parent (same ▸ visits) one.isChild) atParent

theorem Sound.lt_of_left (inner : tree.node parent =
 some (.inner first (before ++ (separator, new) :: after))) (last : lastChild first before = page)
 (path : OnPath tree key page) : key < separator := by
 have member : page ∈ children first (before ++ (separator, new) :: after) := by
  rw [children_append, ← last]
  exact mem_append_left _ lastChild_mem
 have here := (sound.up inner member path).2
 exact stops_cons.mp (passes_of_route (sound.nodup inner) (here.trans last.symm)).2

theorem Sound.le_of_right (inner : tree.node parent =
 some (.inner first (before ++ (separator, new) :: after))) (path : OnPath tree key new) :
 separator ≤ key := by
 have member : new ∈ children first (before ++ (separator, new) :: after) := by
  rw [children_append]
  exact mem_append_right _ mem_cons_self
 have here := (sound.up inner member path).2
 by_contra below
 have left : route key first (before ++ (separator, new) :: after) ∈ children first before := by
  rw [route_cut_left (not_le.mp below)]
  exact route_mem
 have nodup := sound.nodup inner
 rw [children_append, map_cons] at nodup
 grind

variable (two : Two tree parent page new parts)
include two

theorem Two.lt_of_left (path : OnPath tree key page) : key < parts.separator :=
 sound.lt_of_left two.inner two.last path

theorem Two.le_of_right (path : OnPath tree key new) :
 parts.separator ≤ key := sound.le_of_right two.inner path

theorem Two.separator_path :
 OnPath tree parts.separator parent ∧ ∃ key < parts.separator, OnPath tree key parent :=
 sound.covered two.inner (parts.separator, new) (mem_append_right _ mem_cons_self)

theorem Two.parent_ne : parent ≠ page ∧ parent ≠ new := by
 have loopless := sound.not_self (two.separator_path sound).1
 constructor
 · intro same
   exact loopless (same ▸ two.isChild)
 · intro same
   exact loopless (same ▸ two.isChild_right)

theorem Two.page_ne : page ≠ new := by
 have nodup := sound.nodup two.inner
 rw [children_append, map_cons] at nodup
 intro same
 have left : page ∈ children parts.first parts.before := two.last ▸ lastChild_mem
 grind

theorem merge_path (one : One next parent page parts)
 (outside : SameOutside tree next [parent, page, new]) (path : OnPath tree key visited) :
 (visited ≠ page → visited ≠ new → OnPath next key visited) ∧
  (visited = page ∨ visited = new → OnPath next key page) := by
 have nodup := sound.nodup two.inner
 have stops := (sound.increasing two.inner).stops
 induction path with
 | @root root isRoot =>
  refine ⟨fun _ _ => .root (outside.root.trans isRoot), ?_⟩
  rintro (same | same)
  · exact absurd two.isChild (same ▸ sound.rootless isRoot)
  · exact absurd two.isChild_right (same ▸ sound.rootless isRoot)
 | @child above first rest path inner ih =>
  have visits : IsChild tree above (route key first rest) := ⟨_, _, inner, route_mem⟩
  have loopless := sound.not_self path
  by_cases atPage : above = page
  · subst atPage
    have goes := ih.2 (.inl rfl)
    have below := two.lt_of_left sound path
    have cut := two.cut
    rw [some.inj (two.left.symm.trans inner)] at cut
    obtain ⟨child, upper, whole, -⟩ := cut.of_left_inner
    have found := one.found
    rw [whole] at found
    have down := OnPath.child goes found
    rw [route_cut_left below] at down
    refine ⟨fun _ _ => down, ?_⟩
    rintro (same | same)
    · exact absurd (same ▸ visits) loopless
    · omega
  · by_cases atNew : above = new
    · subst atNew
      have goes := ih.2 (.inr rfl)
      have over_separator := two.le_of_right sound path
      have cut := two.cut
      rw [some.inj (two.right.symm.trans inner)] at cut
      obtain ⟨leftFirst, lower, whole, left⟩ := cut.of_right_inner
      have found := one.found
      rw [whole] at found
      have smaller : ∀ entry ∈ lower, entry.1 < parts.separator := fun entry member =>
       two.lt_of_left sound (sound.covered (left ▸ two.left) entry member).1
      have down := OnPath.child goes found
      rw [route_cut_right over_separator smaller] at down
      refine ⟨fun _ _ => down, ?_⟩
      rintro (same | same)
      · omega
      · exact absurd (same ▸ visits) loopless
    · have kept := ih.1 atPage atNew
      by_cases atParent : above = parent
      · subst atParent
        cases inner.symm.trans two.inner
        have down := OnPath.child kept one.inner
        by_cases here : route key parts.first
         (parts.before ++ (parts.separator, new) :: parts.after) = page ∨
         route key parts.first
          (parts.before ++ (parts.separator, new) :: parts.after) = new
        · have removed := route_remove nodup stops
           (here.imp_left fun same => same.trans two.last.symm)
          rw [removed, two.last] at down
          grind
        · obtain ⟨left, right⟩ := not_or.mp here
          rw [route_remove_elsewhere (fun same => left (same.trans two.last)) right] at down
          simp_all
      · have unchanged := outside.node above (by
         simp_all)
        refine ⟨fun _ _ => .child kept (unchanged.trans inner), ?_⟩
        rintro (same | same)
        · exact absurd (sound.parent (same ▸ visits) two.isChild) atParent
        · exact absurd (sound.parent (same ▸ visits) two.isChild_right) atParent

end

/-! ### Splitting keeps a tree sound -/

variable {other : Page}

theorem Two.cases (two : Two next parent page new parts)
 (outside : SameOutside tree next [parent, page, new]) {node : Node Key Value Page}
 (found : next.node other = some node) :
 (other = parent ∧
  node = .inner parts.first (parts.before ++ (parts.separator, new) :: parts.after)) ∨
  (other = page ∧ node = parts.left) ∨ (other = new ∧ node = parts.right) ∨
  (other ∉ [parent, page, new] ∧ tree.node other = some node) := by
 by_cases atParent : other = parent
 · subst atParent
   exact .inl ⟨rfl, some.inj (found.symm.trans two.inner)⟩
 · by_cases atPage : other = page
   · subst atPage
     exact .inr (.inl ⟨rfl, some.inj (found.symm.trans two.left)⟩)
   · by_cases atNew : other = new
     · subst atNew
       exact .inr (.inr (.inl ⟨rfl, some.inj (found.symm.trans two.right)⟩))
     · have outsideAll : other ∉ [parent, page, new] := by
        simp only [mem_cons, not_mem_nil, or_false, not_or]
        exact ⟨atParent, atPage, atNew⟩
       have kept := outside.node other outsideAll
       simp_all

structure Splits (tree next : Tree Key Value Page) (parent page new : Page)
 (parts : Parts Key Value Page) : Prop where
 one : One tree parent page parts
 two : Two next parent page new parts
 fresh : tree.node new = none
 outside : SameOutside tree next [parent, page, new]
 through : OnPath tree parts.separator page
 low : ∃ key < parts.separator, OnPath tree key page

variable (sound : Sound tree) (splits : Splits tree next parent page new parts)

include sound splits

theorem Splits.path (path : OnPath tree key visited) :
 (visited ≠ page → OnPath next key visited) ∧
  (visited = page → if key < parts.separator then OnPath next key page
   else OnPath next key new) :=
 split_path sound splits.one splits.two splits.fresh splits.outside splits.through path

theorem Splits.left (path : OnPath tree key page) (below : key < parts.separator) :
 OnPath next key page := by
 have goes := (splits.path sound path).2 rfl
 rw [if_pos below] at goes
 exact goes

theorem Splits.right (path : OnPath tree key page) (above : parts.separator ≤ key) :
 OnPath next key new := by
 have goes := (splits.path sound path).2 rfl
 grind

variable {below : Page}

theorem Splits.old {above : Page} (child : IsChild tree above below) : below ≠ new := by
 intro same
 exact sound.present child (same ▸ splits.fresh)

omit sound in
theorem Splits.parent_old : parent ≠ new := by
 intro same
 have inner := splits.one.inner
 rw [same, splits.fresh] at inner
 cases inner

theorem Splits.isChild {above : Page} (child : IsChild next above below) :
 (above = parent ∧ below = new) ∨ (above = new ∧ below ≠ new ∧ IsChild tree page below) ∨
  (above ≠ new ∧ below ≠ new ∧ IsChild tree above below) := by
 obtain ⟨first, rest, inner, member⟩ := child
 rcases splits.two.cases splits.outside inner with ⟨atParent, same⟩ | ⟨atPage, same⟩ |
  ⟨atNew, same⟩ | ⟨outsideAll, found⟩
 · cases same
   rw [children_append, map_cons] at member
   by_cases isNew : below = new
   · exact .inl ⟨atParent, isNew⟩
   · have kept : below ∈ children parts.first (parts.before ++ parts.after) := by
      rw [children_append]
      rcases mem_append.mp member with left | right
      · exact mem_append_left _ left
      · simp_all
     refine .inr (.inr ⟨atParent ▸ splits.parent_old, isNew, ?_⟩)
     exact ⟨_, _, atParent ▸ splits.one.inner, kept⟩
 · have cut := splits.one.cut
   rw [← same] at cut
   obtain ⟨child, upper, whole, -⟩ := cut.of_left_inner
   have old : IsChild tree page below := by
    refine ⟨_, _, whole ▸ splits.one.found, ?_⟩
    rw [children_append]
    exact mem_append_left _ member
   refine .inr (.inr ⟨?_, splits.old sound old, atPage ▸ old⟩)
   exact atPage ▸ splits.old sound splits.one.isChild
 · have cut := splits.one.cut
   rw [← same] at cut
   obtain ⟨leftFirst, lower, whole, -⟩ := cut.of_right_inner
   have old : IsChild tree page below := by
    refine ⟨_, _, whole ▸ splits.one.found, ?_⟩
    rw [children_append]
    exact mem_append_right _ member
   exact .inr (.inl ⟨atNew, splits.old sound old, old⟩)
 · have old : IsChild tree above below := ⟨_, _, found, member⟩
   refine .inr (.inr ⟨?_, splits.old sound old, old⟩)
   simp_all

theorem Splits.disjoint (left : IsChild next page below) (right : IsChild next new below) :
 False := by
 obtain ⟨leftFirst, leftRest, leftInner, leftMember⟩ := left
 obtain ⟨rightFirst, rightRest, rightInner, rightMember⟩ := right
 have cut := splits.one.cut
 rw [some.inj (splits.two.left.symm.trans leftInner)] at cut
 obtain ⟨child, upper, whole, same⟩ := cut.of_left_inner
 rw [some.inj (splits.two.right.symm.trans rightInner)] at same
 cases same
 have nodup := sound.nodup (whole ▸ splits.one.found)
 rw [children_append] at nodup
 exact disjoint_of_nodup_append nodup leftMember rightMember

omit sound in
theorem Splits.node (found : tree.node other ≠ none) : next.node other ≠ none := by
 intro absent
 by_cases inside : other ∈ [parent, page, new]
 · simp only [mem_cons, not_mem_nil, or_false] at inside
   rcases inside with same | same | same
   · rw [same, splits.two.inner] at absent
     cases absent
   · rw [same, splits.two.left] at absent
     cases absent
   · rw [same, splits.two.right] at absent
     cases absent
 · exact found ((splits.outside.node other inside).symm.trans absent)

theorem Splits.increasing : Increasing
 (parts.before ++ (parts.separator, new) :: parts.after) := by
 have increasing := sound.increasing splits.one.inner
 have nodup := sound.nodup splits.one.inner
 have member : page ∈ children parts.first (parts.before ++ parts.after) := by
  rw [children_append, ← splits.one.last]
  exact mem_append_left _ lastChild_mem
 obtain ⟨key, below, lowPath⟩ := splits.low
 have low := (sound.up splits.one.inner member lowPath).2
 have through := (sound.up splits.one.inner member splits.through).2
 have passes := (passes_of_route nodup (low.trans splits.one.last.symm)).1
 have stops := (passes_of_route nodup (through.trans splits.one.last.symm)).2
 obtain ⟨before, after, between⟩ := pairwise_append.mp increasing
 refine pairwise_append.mpr ⟨before, pairwise_cons.mpr ⟨?_, after⟩, ?_⟩
 · intro entry inAfter
   cases rest : parts.after with
   | nil =>
    rw [rest] at inAfter
    cases inAfter
   | cons head tail =>
    rw [rest] at inAfter after stops
    rcases mem_cons.mp inAfter with same | later
    · exact same ▸ stops head rfl
    · exact lt_trans (stops head rfl) ((pairwise_cons.mp after).1 entry later)
 · intro left inBefore right inRight
   rcases mem_cons.mp inRight with same | inAfter
   · exact same ▸ lt_of_le_of_lt (passes left inBefore) below
   · exact between left inBefore right inAfter

theorem Splits.covered (inner : next.node other = some (.inner first rest)) :
 ∀ entry ∈ rest, OnPath next entry.1 other ∧ ∃ key < entry.1, OnPath next key other := by
 intro entry member
 have parentOther : parent ≠ page := by
  intro same
  exact sound.not_self splits.through (same ▸ splits.one.isChild)
 rcases splits.two.cases splits.outside inner with ⟨atParent, same⟩ | ⟨atPage, same⟩ |
  ⟨atNew, same⟩ | ⟨outsideAll, found⟩
 · cases same
   rw [atParent]
   have pageMember : page ∈ children parts.first (parts.before ++ parts.after) := by
    rw [children_append, ← splits.one.last]
    exact mem_append_left _ lastChild_mem
   have keeps {key : Key} (path : OnPath tree key parent) : OnPath next key parent :=
    (splits.path sound path).1 parentOther
   have old : entry ∈ parts.before ++ parts.after ∨ entry.1 = parts.separator := by
    rcases mem_append.mp member with left | right
    · exact .inl (mem_append_left _ left)
    · rcases mem_cons.mp right with same | later
      · exact .inr (same ▸ rfl)
      · exact .inl (mem_append_right _ later)
   rcases old with inside | isSeparator
   · obtain ⟨here, key, below, lower⟩ := sound.covered splits.one.inner entry inside
     exact ⟨keeps here, key, below, keeps lower⟩
   · obtain ⟨key, below, lower⟩ := splits.low
     rw [isSeparator]
     exact ⟨keeps (sound.up splits.one.inner pageMember splits.through).1, key, below,
      keeps (sound.up splits.one.inner pageMember lower).1⟩
 · have cut := splits.one.cut
   rw [← same] at cut
   obtain ⟨child, upper, whole, -⟩ := cut.of_left_inner
   have found := whole ▸ splits.one.found
   have below := (sound.increasing found).lower entry member
   obtain ⟨here, key, less, lower⟩ := sound.covered found entry (mem_append_left _ member)
   rw [atPage]
   exact ⟨splits.left sound here below, key, less, splits.left sound lower (lt_trans less below)⟩
 · have cut := splits.one.cut
   rw [← same] at cut
   obtain ⟨leftFirst, lower, whole, -⟩ := cut.of_right_inner
   have found := whole ▸ splits.one.found
   have tail := (pairwise_append.mp (sound.increasing found)).2.1
   have above := (pairwise_cons.mp tail).1 entry member
   have here := (sound.covered found entry
    (mem_append_right _ (mem_cons_of_mem _ member))).1
   rw [atNew]
   exact ⟨splits.right sound here (le_of_lt above), parts.separator, above,
    splits.right sound splits.through (le_refl _)⟩
 · have notPage : other ≠ page := by
    intro same
    rw [same] at outsideAll
    simp at outsideAll
   obtain ⟨here, key, below, lower⟩ := sound.covered found entry member
   exact ⟨(splits.path sound here).1 notPage, key, below, (splits.path sound lower).1 notPage⟩

theorem Splits.leaf (leaf : next.node other = some (.leaf entries)) :
 Increasing entries ∧ ∀ entry ∈ entries, OnPath next entry.1 other := by
 rcases splits.two.cases splits.outside leaf with ⟨-, same⟩ | ⟨atPage, same⟩ |
  ⟨atNew, same⟩ | ⟨outsideAll, found⟩
 · cases same
 · have cut := splits.one.cut
   rw [← same] at cut
   obtain ⟨upper, whole, -, below, -⟩ := cut.of_left_leaf
   have found := whole ▸ splits.one.found
   refine ⟨(pairwise_append.mp (sound.sorted found)).1, ?_⟩
   intro entry member
   rw [atPage]
   exact splits.left sound (sound.placed found entry (mem_append_left _ member))
    (below entry member)
 · have cut := splits.one.cut
   rw [← same] at cut
   obtain ⟨lower, whole, -, -, above⟩ := cut.of_right_leaf
   have found := whole ▸ splits.one.found
   refine ⟨(pairwise_append.mp (sound.sorted found)).2.1, ?_⟩
   intro entry member
   rw [atNew]
   exact splits.right sound (sound.placed found entry (mem_append_right _ member))
    (above entry member)
 · refine ⟨sound.sorted found, ?_⟩
   intro entry member
   apply (splits.path sound (sound.placed found entry member)).1
   simp_all

theorem Splits.inner (inner : next.node other = some (.inner first rest)) :
 Increasing rest ∧ (children first rest).Nodup := by
 rcases splits.two.cases splits.outside inner with ⟨-, same⟩ | ⟨-, same⟩ |
  ⟨-, same⟩ | ⟨-, found⟩
 · cases same
   refine ⟨splits.increasing sound, ?_⟩
   have nodup := sound.nodup splits.one.inner
   have absent : new ∉ children parts.first (parts.before ++ parts.after) := fun member =>
    splits.old sound ⟨_, _, splits.one.inner, member⟩ rfl
   rw [children_append] at nodup absent
   rw [children_append, map_cons, nodup_middle, nodup_cons]
   exact ⟨absent, nodup⟩
 · have cut := splits.one.cut
   rw [← same] at cut
   obtain ⟨child, upper, whole, -⟩ := cut.of_left_inner
   have found := whole ▸ splits.one.found
   have nodup := sound.nodup found
   rw [children_append] at nodup
   exact ⟨(pairwise_append.mp (sound.increasing found)).1, (nodup_append.mp nodup).1⟩
 · have cut := splits.one.cut
   rw [← same] at cut
   obtain ⟨leftFirst, lower, whole, -⟩ := cut.of_right_inner
   have found := whole ▸ splits.one.found
   have nodup := sound.nodup found
   rw [children_append] at nodup
   exact ⟨(pairwise_cons.mp (pairwise_append.mp (sound.increasing found)).2.1).2,
    (nodup_append.mp nodup).2.1⟩
 · exact ⟨sound.increasing found, sound.nodup found⟩

theorem Splits.parent_unique {left right : Page} (first : IsChild next left below)
 (second : IsChild next right below) : left = right := by
 rcases splits.isChild sound first with ⟨leftParent, isNew⟩ | ⟨leftNew, notNew, leftOld⟩ |
  ⟨leftOther, notNew, leftOld⟩
 · rcases splits.isChild sound second with ⟨rightParent, -⟩ | ⟨-, notNew, -⟩ | ⟨-, notNew, -⟩
   · exact leftParent.trans rightParent.symm
   · exact absurd isNew notNew
   · exact absurd isNew notNew
 · rcases splits.isChild sound second with ⟨-, isNew⟩ | ⟨rightNew, -, -⟩ | ⟨-, -, rightOld⟩
   · exact absurd isNew notNew
   · exact leftNew.trans rightNew.symm
   · have atPage := sound.parent rightOld leftOld
     exact (splits.disjoint sound (atPage ▸ second) (leftNew ▸ first)).elim
 · rcases splits.isChild sound second with ⟨-, isNew⟩ | ⟨rightNew, -, rightOld⟩ | ⟨-, -, rightOld⟩
   · exact absurd isNew notNew
   · have atPage := sound.parent leftOld rightOld
     exact (splits.disjoint sound (atPage ▸ first) (rightNew ▸ second)).elim
   · exact sound.parent leftOld rightOld

theorem Splits.next_sound : Sound next where
 increasing inner := (splits.inner sound inner).1
 nodup inner := (splits.inner sound inner).2
 sorted leaf := (splits.leaf sound leaf).1
 covered inner := splits.covered sound inner
 placed leaf := (splits.leaf sound leaf).2
 parent first second := splits.parent_unique sound first second
 rootless := by
  intro root above isRoot child
  rw [splits.outside.root] at isRoot
  rcases splits.isChild sound child with ⟨-, isNew⟩ | ⟨-, -, old⟩ | ⟨-, -, old⟩
  · exact sound.rooted isRoot (isNew ▸ splits.fresh)
  · exact sound.rootless isRoot old
  · exact sound.rootless isRoot old
 rooted isRoot := splits.node (sound.rooted (splits.outside.root.symm.trans isRoot))
 present := by
  intro above below child
  rcases splits.isChild sound child with ⟨-, isNew⟩ | ⟨-, -, old⟩ | ⟨-, -, old⟩
  · rw [isNew, splits.two.right]
    exact some_ne_none _
  · exact splits.node (sound.present old)
  · exact splits.node (sound.present old)

end

/-! ### Merging keeps a tree sound -/

section

variable {new : Page} {parts : Parts Key Value Page}

structure Merges (tree next : Tree Key Value Page) (parent page new : Page)
 (parts : Parts Key Value Page) : Prop where
 two : Two tree parent page new parts
 one : One next parent page parts
 gone : next.node new = none
 outside : SameOutside tree next [parent, page, new]

variable (sound : Sound tree) (merges : Merges tree next parent page new parts)

include sound merges

theorem Merges.path {visited : Page} (path : OnPath tree key visited) :
 (visited ≠ page → visited ≠ new → OnPath next key visited) ∧
  (visited = page ∨ visited = new → OnPath next key page) :=
 merge_path sound merges.two merges.one merges.outside path

variable {other : Page}

omit sound in
theorem Merges.cases {node : Node Key Value Page} (found : next.node other = some node) :
 (other = parent ∧ node = .inner parts.first (parts.before ++ parts.after)) ∨
  (other = page ∧ node = parts.whole) ∨
  (other ∉ [parent, page, new] ∧ tree.node other = some node) := by
 by_cases atParent : other = parent
 · subst atParent
   exact .inl ⟨rfl, some.inj (found.symm.trans merges.one.inner)⟩
 · by_cases atPage : other = page
   · subst atPage
     exact .inr (.inl ⟨rfl, some.inj (found.symm.trans merges.one.found)⟩)
   · have notNew : other ≠ new := by
      intro same
      rw [same, merges.gone] at found
      cases found
     have outsideAll : other ∉ [parent, page, new] := by
      simp only [mem_cons, not_mem_nil, or_false, not_or]
      exact ⟨atParent, atPage, notNew⟩
     exact .inr (.inr ⟨outsideAll,
      (merges.outside.node other outsideAll).symm.trans found⟩)

variable {below : Page}

theorem Merges.isChild {above : Page} (child : IsChild next above below) :
 below ≠ new ∧ ((above = page ∧ (IsChild tree page below ∨ IsChild tree new below)) ∨
  (above ≠ page ∧ above ≠ new ∧ IsChild tree above below)) := by
 obtain ⟨parentPage, parentNew⟩ := merges.two.parent_ne sound
 have notNew {above : Page} (different : above ≠ parent) (old : IsChild tree above below) :
  below ≠ new := by
  intro same
  exact different (sound.parent (same ▸ old) merges.two.isChild_right)
 obtain ⟨first, rest, inner, member⟩ := child
 rcases merges.cases inner with ⟨atParent, same⟩ | ⟨atPage, same⟩ | ⟨outsideAll, found⟩
 · cases same
   have nodup := sound.nodup merges.two.inner
   rw [children_append, map_cons, nodup_middle, nodup_cons,
    ← children_append] at nodup
   have old : IsChild tree parent below := by
    refine ⟨_, _, merges.two.inner, ?_⟩
    rw [children_append] at member ⊢
    rcases mem_append.mp member with left | right
    · exact mem_append_left _ left
    · simp_all
   grind
 · have cut := merges.two.cut
   rw [← same] at cut
   obtain ⟨lower, child, upper, same, left, right⟩ := cut.of_inner
   rw [same, children_append] at member
   rcases mem_append.mp member with inLeft | inRight
   · have old : IsChild tree page below := ⟨_, _, left ▸ merges.two.left, inLeft⟩
     grind
   · have old : IsChild tree new below := ⟨_, _, right ▸ merges.two.right, inRight⟩
     grind
 · have old : IsChild tree above below := ⟨_, _, found, member⟩
   grind

theorem Merges.inner (inner : next.node other = some (.inner first rest)) :
 Increasing rest ∧ (children first rest).Nodup := by
 rcases merges.cases inner with ⟨-, same⟩ | ⟨-, same⟩ | ⟨-, found⟩
 · cases same
   have kept : (parts.before ++ parts.after).Sublist
    (parts.before ++ (parts.separator, new) :: parts.after) :=
    (List.Sublist.refl _).append (sublist_cons_self _ _)
   exact ⟨(sound.increasing merges.two.inner).sublist kept,
    (sound.nodup merges.two.inner).sublist ((kept.map _).cons_cons _)⟩
 · have cut := merges.two.cut
   rw [← same] at cut
   obtain ⟨lower, child, upper, same, left, right⟩ := cut.of_inner
   subst same
   have leftFound := left ▸ merges.two.left
   have rightFound := right ▸ merges.two.right
   have below : ∀ entry ∈ lower, entry.1 < parts.separator := fun entry member =>
    merges.two.lt_of_left sound (sound.covered leftFound entry member).1
   have above : ∀ entry ∈ upper, parts.separator < entry.1 := by
    intro entry member
    obtain ⟨-, key, less, path⟩ := sound.covered rightFound entry member
    exact lt_of_le_of_lt (merges.two.le_of_right sound path) less
   constructor
   · refine pairwise_append.mpr ⟨sound.increasing leftFound,
      pairwise_cons.mpr ⟨above, sound.increasing rightFound⟩, ?_⟩
     intro low inLower high inUpper
     rcases mem_cons.mp inUpper with same | later
     · exact same ▸ below low inLower
     · grind
   · rw [children_append]
     refine nodup_append'.mpr ⟨sound.nodup leftFound, sound.nodup rightFound, ?_⟩
     intro below inLeft inRight
     exact merges.two.page_ne sound
      (sound.parent ⟨_, _, leftFound, inLeft⟩ ⟨_, _, rightFound, inRight⟩)
 · exact ⟨sound.increasing found, sound.nodup found⟩

theorem Merges.low : ∃ key < parts.separator, OnPath tree key page := by
 obtain ⟨-, key, below, path⟩ := merges.two.separator_path sound
 have passing : ∃ key < parts.separator, OnPath tree key parent ∧ Passes key parts.before := by
  rcases eq_nil_or_concat' parts.before with empty | ⟨init, last, same⟩
  · refine ⟨key, below, path, ?_⟩
    rw [empty]
    exact fun _ member => absurd member not_mem_nil
  · have increasing := sound.increasing merges.two.inner
    have inside : last ∈ parts.before := same ▸ mem_concat_self
    have member : last ∈ parts.before ++ (parts.separator, new) :: parts.after :=
     mem_append_left _ inside
    refine ⟨last.1, increasing.lower last inside,
     (sound.covered merges.two.inner last member).1, ?_⟩
    have before := (pairwise_append.mp increasing).1
    rw [same] at before ⊢
    intro entry inBefore
    rcases mem_append.mp inBefore with earlier | here
    · grind
    · rw [mem_singleton.mp here]
 obtain ⟨key, below, path, passes⟩ := passing
 refine ⟨key, below, ?_⟩
 have down := OnPath.child path merges.two.inner
 rw [route_of_passes_stops passes (stops_cons.mpr below), merges.two.last] at down
 exact down

theorem Merges.through : OnPath tree parts.separator new := by
 have down := OnPath.child (merges.two.separator_path sound).1 merges.two.inner
 have increasing := sound.increasing merges.two.inner
 rw [route_cut_right (le_refl _) increasing.lower, route_of_stops increasing.stops] at down
 exact down

theorem Merges.covered (inner : next.node other = some (.inner first rest)) :
 ∀ entry ∈ rest, OnPath next entry.1 other ∧ ∃ key < entry.1, OnPath next key other := by
 intro entry member
 have moved {key : Key} {visited : Page} (path : OnPath tree key visited)
  (either : visited = page ∨ visited = new) : OnPath next key page :=
  (merges.path sound path).2 either
 rcases merges.cases inner with ⟨atParent, same⟩ | ⟨atPage, same⟩ | ⟨outsideAll, found⟩
 · cases same
   rw [atParent]
   have keeps {key : Key} (path : OnPath tree key parent) : OnPath next key parent :=
    (merges.path sound path).1 (merges.two.parent_ne sound).1 (merges.two.parent_ne sound).2
   have old : entry ∈ parts.before ++ (parts.separator, new) :: parts.after := by
    rcases mem_append.mp member with left | right
    · exact mem_append_left _ left
    · simp_all
   obtain ⟨here, key, below, lower⟩ := sound.covered merges.two.inner entry old
   exact ⟨keeps here, key, below, keeps lower⟩
 · have cut := merges.two.cut
   rw [← same] at cut
   obtain ⟨lower, child, upper, same, left, right⟩ := cut.of_inner
   subst same
   rw [atPage]
   rcases mem_append.mp member with inLower | inRight
   · obtain ⟨here, key, below, low⟩ := sound.covered (left ▸ merges.two.left) entry inLower
     grind
   · rcases mem_cons.mp inRight with same | inUpper
     · obtain ⟨key, below, low⟩ := merges.low sound
       rw [same]
       exact ⟨moved (merges.through sound) (.inr rfl), key, below, moved low (.inl rfl)⟩
     · obtain ⟨here, key, below, low⟩ := sound.covered (right ▸ merges.two.right) entry inUpper
       grind
 · simp only [mem_cons, not_mem_nil, or_false, not_or] at outsideAll
   obtain ⟨here, key, below, lower⟩ := sound.covered found entry member
   exact ⟨(merges.path sound here).1 outsideAll.2.1 outsideAll.2.2, key, below,
    (merges.path sound lower).1 outsideAll.2.1 outsideAll.2.2⟩

theorem Merges.leaf (leaf : next.node other = some (.leaf entries)) :
 Increasing entries ∧ ∀ entry ∈ entries, OnPath next entry.1 other := by
 rcases merges.cases leaf with ⟨-, same⟩ | ⟨atPage, same⟩ | ⟨outsideAll, found⟩
 · cases same
 · have cut := merges.two.cut
   rw [← same] at cut
   obtain ⟨lower, upper, same, left, right, below, above⟩ := cut.of_leaf
   subst same
   have leftFound := left ▸ merges.two.left
   have rightFound := right ▸ merges.two.right
   rw [atPage]
   constructor
   · refine pairwise_append.mpr ⟨sound.sorted leftFound, sound.sorted rightFound, ?_⟩
     grind
   · intro entry member
     rcases mem_append.mp member with inLower | inUpper
     · exact (merges.path sound (sound.placed leftFound entry inLower)).2 (.inl rfl)
     · exact (merges.path sound (sound.placed rightFound entry inUpper)).2 (.inr rfl)
 · simp only [mem_cons, not_mem_nil, or_false, not_or] at outsideAll
   refine ⟨sound.sorted found, ?_⟩
   intro entry member
   exact (merges.path sound (sound.placed found entry member)).1 outsideAll.2.1 outsideAll.2.2

theorem Merges.parent_unique {left right : Page} (first : IsChild next left below)
 (second : IsChild next right below) : left = right := by
 obtain ⟨-, ⟨leftPage, leftOld⟩ | ⟨leftNot, leftNotNew, leftOld⟩⟩ := merges.isChild sound first
 · obtain ⟨-, ⟨rightPage, -⟩ | ⟨rightNot, rightNotNew, rightOld⟩⟩ := merges.isChild sound second
   · exact leftPage.trans rightPage.symm
   · rcases leftOld with old | old
     · exact absurd (sound.parent rightOld old) rightNot
     · exact absurd (sound.parent rightOld old) rightNotNew
 · obtain ⟨-, ⟨-, rightOld⟩ | ⟨-, -, rightOld⟩⟩ := merges.isChild sound second
   · rcases rightOld with old | old
     · exact absurd (sound.parent leftOld old) leftNot
     · exact absurd (sound.parent leftOld old) leftNotNew
   · exact sound.parent leftOld rightOld

omit sound in
theorem Merges.node (found : tree.node other ≠ none) (kept : other ≠ new) :
 next.node other ≠ none := by
 by_cases inside : other ∈ [parent, page, new]
 · simp only [mem_cons, not_mem_nil, or_false] at inside
   rcases inside with same | same | same
   · rw [same, merges.one.inner]
     exact some_ne_none _
   · rw [same, merges.one.found]
     exact some_ne_none _
   · exact absurd same kept
 · rw [merges.outside.node other inside]
   exact found

theorem Merges.old_parent {above : Page} (child : IsChild next above below) :
 ∃ old, IsChild tree old below := by
 obtain ⟨-, ⟨-, old | old⟩ | ⟨-, -, old⟩⟩ := merges.isChild sound child
 · exact ⟨_, old⟩
 · exact ⟨_, old⟩
 · exact ⟨_, old⟩

theorem Merges.next_sound : Sound next where
 increasing inner := (merges.inner sound inner).1
 nodup inner := (merges.inner sound inner).2
 sorted leaf := (merges.leaf sound leaf).1
 covered inner := merges.covered sound inner
 placed leaf := (merges.leaf sound leaf).2
 parent first second := merges.parent_unique sound first second
 rootless := by
  intro root above isRoot child
  rw [merges.outside.root] at isRoot
  obtain ⟨old, isOld⟩ := merges.old_parent sound child
  exact sound.rootless isRoot isOld
 rooted := by
  intro root isRoot
  rw [merges.outside.root] at isRoot
  apply merges.node (sound.rooted isRoot)
  intro same
  exact sound.rootless isRoot (same ▸ merges.two.isChild_right)
 present := by
  intro above below child
  obtain ⟨old, isOld⟩ := merges.old_parent sound child
  exact merges.node (sound.present isOld) (merges.isChild sound child).1

end

end MyNotes.Library.PagedTree
