/-
Search trees whose nodes are pages.

An inner page has a first child and, in order, separators with the child to the right of
each.  The pages that a search for a key visits are its path.  A page is split, or merged
with its right neighbour, under their parent; the lemmas say where the paths go afterwards.
-/

import Mathlib.Order.Lattice

namespace MyNotes.Library.PagedTree

open List Relation.TransGen

inductive Node (Key Value Page : Type*) where
 | leaf (entries : List (Key × Value))
 | inner (first : Page) (rest : List (Key × Page))

structure Tree (Key Value Page : Type*) where
 root : Option Page
 node : Page → Option (Node Key Value Page)

variable {Key Value Page : Type*}

/-! ### Routing -/

def lastChild (first : Page) (rest : List (Key × Page)) : Page :=
 (rest.getLast?.map Prod.snd).getD first

def children (first : Page) (rest : List (Key × Page)) : List Page := first :: rest.map Prod.snd

variable {first : Page}

theorem lastChild_mem {rest : List (Key × Page)} : lastChild first rest ∈ children first rest := by
 unfold lastChild children
 cases last : rest.getLast? with
 | none => exact mem_cons_self
 | some entry =>
  grind

@[simp] theorem lastChild_cons {rest : List (Key × Page)} (entry : Key × Page) :
 lastChild first (entry :: rest) = lastChild entry.2 rest := by
 unfold lastChild
 rw [List.getLast?_cons]
 cases rest.getLast? <;> rfl

theorem children_append (before after : List (Key × Page)) :
 children first (before ++ after) = children first before ++ after.map Prod.snd := by
 unfold children
 rw [map_append, cons_append]

variable [LinearOrder Key]

/-- The child for a key: the one to the right of the last separator that is not above it. -/
def route (key : Key) : Page → List (Key × Page) → Page
 | first, [] => first
 | first, (separator, child) :: rest => if key < separator then first else route key child rest

def Passes (key : Key) (rest : List (Key × Page)) : Prop := ∀ entry ∈ rest, entry.1 ≤ key

def StopsAt (key : Key) (rest : List (Key × Page)) : Prop := ∀ entry ∈ rest.head?, key < entry.1

def Increasing {Item : Type*} (items : List (Key × Item)) : Prop :=
 items.Pairwise fun left right => left.1 < right.1

variable {key separator : Key} {first page child : Page} {before after rest : List (Key × Page)}

theorem route_mem : route key first rest ∈ children first rest := by
 induction rest generalizing first with
 | nil => exact mem_singleton_self _
 | cons entry rest ih =>
  unfold route
  split
  · exact mem_cons_self
  · exact mem_cons_of_mem _ ih

theorem passes_cons {entry : Key × Page} :
 Passes key (entry :: rest) ↔ entry.1 ≤ key ∧ Passes key rest := forall_mem_cons

theorem route_of_stops (stops : StopsAt key rest) : route key first rest = first := by
 cases rest with
 | nil => rfl
 | cons entry rest => exact if_pos (stops entry rfl)

theorem route_of_not_stops (goesOn : ¬ StopsAt key rest) (other : Page) :
 route key first rest = route key other rest := by
 cases rest with
 | nil => exact absurd (fun _ member => by cases member) goesOn
 | cons entry rest =>
  have below : ¬ key < entry.1 := by
   intro above
   apply goesOn
   intro head member
   cases member
   exact above
  exact (if_neg below).trans (if_neg below).symm

theorem route_append_of_passes (passes : Passes key before) :
 route key first (before ++ after) = route key (lastChild first before) after := by
 induction before generalizing first with
 | nil => rfl
 | cons entry before ih =>
  obtain ⟨below, rest⟩ := passes_cons.mp passes
  rw [cons_append, lastChild_cons, ← ih rest]
  exact if_neg (not_lt.mpr below)

theorem route_append_of_not_passes (stops : ¬ Passes key before) (other : List (Key × Page)) :
 route key first (before ++ after) = route key first (before ++ other) := by
 induction before generalizing first with
 | nil => exact absurd (fun _ member => absurd member not_mem_nil) stops
 | cons entry before ih =>
  rw [cons_append, cons_append]
  unfold route
  split
  · rfl
  · rename_i below
    apply ih
    intro passes
    exact stops (passes_cons.mpr ⟨not_lt.mp below, passes⟩)

theorem passes_of_route (nodup : (children first (before ++ after)).Nodup)
 (same : route key first (before ++ after) = lastChild first before) :
 Passes key before ∧ StopsAt key after := by
 induction before generalizing first with
 | nil =>
  refine ⟨fun _ member => absurd member not_mem_nil, ?_⟩
  by_contra goesOn
  cases after with
  | nil => exact goesOn fun _ member => by cases member
  | cons entry after =>
   have below : ¬ key < entry.1 := by
    intro above
    apply goesOn
    intro head member
    cases member
    exact above
   have later : route key entry.2 after = first := (if_neg below).symm.trans same
   have member : first ∈ children entry.2 after := later ▸ route_mem
   exact (nodup_cons.mp nodup).1 member
 | cons entry before ih =>
  obtain ⟨absent, rest⟩ := nodup_cons.mp nodup
  rw [lastChild_cons] at same
  by_cases above : key < entry.1
  · have here : first = lastChild entry.2 before := (if_pos above).symm.trans same
    have member : lastChild entry.2 before ∈ children entry.2 (before ++ after) := by
     rw [children_append]
     exact mem_append_left _ lastChild_mem
    exact absurd (here ▸ member) absent
  · have later : route key entry.2 (before ++ after) = lastChild entry.2 before :=
     (if_neg above).symm.trans same
    obtain ⟨passes, stops⟩ := ih rest later
    exact ⟨passes_cons.mpr ⟨not_lt.mp above, passes⟩, stops⟩

theorem route_of_passes_stops (passes : Passes key before) (stops : StopsAt key after) :
 route key first (before ++ after) = lastChild first before :=
 (route_append_of_passes passes).trans (route_of_stops stops)

theorem stops_cons {entry : Key × Page} : StopsAt key (entry :: rest) ↔ key < entry.1 := by
 constructor
 · exact fun stops => stops entry rfl
 · intro above head member
   cases member
   exact above

theorem route_insert (nodup : (children first (before ++ after)).Nodup)
 (same : route key first (before ++ after) = lastChild first before) (new : Page) :
 route key first (before ++ (separator, new) :: after) =
  if key < separator then lastChild first before else new := by
 obtain ⟨passes, stops⟩ := passes_of_route nodup same
 rw [route_append_of_passes passes]
 unfold route
 split
 · rfl
 · exact route_of_stops stops

theorem route_insert_elsewhere (stops : StopsAt separator after)
 (different : route key first (before ++ after) ≠ lastChild first before) (new : Page) :
 route key first (before ++ (separator, new) :: after) = route key first (before ++ after) := by
 by_cases passes : Passes key before
 · have goesOn : ¬ StopsAt key after := fun ends => different (route_of_passes_stops passes ends)
   have notBelow : ¬ key < separator := by
    intro below
    apply goesOn
    intro entry member
    exact lt_trans below (stops entry member)
   rw [route_append_of_passes passes, route_append_of_passes passes]
   exact (if_neg notBelow).trans (route_of_not_stops goesOn _)
 · exact route_append_of_not_passes passes _

theorem route_remove (nodup : (children first (before ++ (separator, child) :: after)).Nodup)
 (stops : StopsAt separator after)
 (same : route key first (before ++ (separator, child) :: after) = lastChild first before ∨
  route key first (before ++ (separator, child) :: after) = child) :
 route key first (before ++ after) = lastChild first before := by
 rcases same with left | right
 · obtain ⟨passes, ends⟩ := passes_of_route nodup left
   have below := stops_cons.mp ends
   exact route_of_passes_stops passes fun entry member => lt_trans below (stops entry member)
 · have whole : before ++ (separator, child) :: after =
    (before ++ [(separator, child)]) ++ after :=
    append_cons _ _ _
   have last : lastChild first (before ++ [(separator, child)]) = child := by
    unfold lastChild
    rw [List.getLast?_concat]
    rfl
   rw [whole] at nodup right
   obtain ⟨passes, ends⟩ := passes_of_route nodup (right.trans last.symm)
   exact route_of_passes_stops
    (fun entry member => passes entry (mem_append_left _ member)) ends

theorem route_remove_elsewhere
 (left : route key first (before ++ (separator, child) :: after) ≠ lastChild first before)
 (right : route key first (before ++ (separator, child) :: after) ≠ child) :
 route key first (before ++ after) =
  route key first (before ++ (separator, child) :: after) := by
 by_cases passes : Passes key before
 · rw [route_append_of_passes passes] at left right ⊢
   rw [route_append_of_passes passes]
   by_cases below : key < separator
   · exact absurd (if_pos below) left
   · have later : route key (lastChild first before) ((separator, child) :: after) =
      route key child after := if_neg below
     rw [later] at right ⊢
     exact route_of_not_stops (fun ends => right (route_of_stops ends)) _
 · exact route_append_of_not_passes passes _

/-! ### Paths -/

inductive OnPath (tree : Tree Key Value Page) (key : Key) : Page → Prop
 | root {page : Page} (isRoot : tree.root = some page) : OnPath tree key page
 | child {page first : Page} {rest : List (Key × Page)} (above : OnPath tree key page)
  (inner : tree.node page = some (.inner first rest)) :
  OnPath tree key (route key first rest)

omit [LinearOrder Key] in
def IsChild (tree : Tree Key Value Page) (parent child : Page) : Prop :=
 ∃ first rest, tree.node parent = some (.inner first rest) ∧ child ∈ children first rest

structure Sound (tree : Tree Key Value Page) : Prop where
 increasing : ∀ {page first rest}, tree.node page = some (.inner first rest) → Increasing rest
 nodup : ∀ {page first rest}, tree.node page = some (.inner first rest) →
  (children first rest).Nodup
 sorted : ∀ {page entries}, tree.node page = some (.leaf entries) → Increasing entries
 /-- A separator lies inside the keys of its page. -/
 covered : ∀ {page first rest}, tree.node page = some (.inner first rest) → ∀ entry ∈ rest,
  OnPath tree entry.1 page ∧ ∃ key < entry.1, OnPath tree key page
 placed : ∀ {page entries}, tree.node page = some (.leaf entries) → ∀ entry ∈ entries,
  OnPath tree entry.1 page
 parent : ∀ {left right child}, IsChild tree left child → IsChild tree right child → left = right
 rootless : ∀ {root page}, tree.root = some root → ¬ IsChild tree page root
 rooted : ∀ {root}, tree.root = some root → tree.node root ≠ none
 present : ∀ {page child}, IsChild tree page child → tree.node child ≠ none

variable {tree next : Tree Key Value Page} {parent : Page}

theorem Sound.up (sound : Sound tree) (inner : tree.node parent = some (.inner first rest))
 (member : page ∈ children first rest) (path : OnPath tree key page) :
 OnPath tree key parent ∧ route key first rest = page := by
 cases path with
 | root isRoot => exact absurd ⟨first, rest, inner, member⟩ (sound.rootless isRoot)
 | child above other =>
  have same := sound.parent ⟨_, _, other, route_mem⟩ ⟨first, rest, inner, member⟩
  simp_all

theorem Sound.not_below (sound : Sound tree) (path : OnPath tree key page) :
 ¬ Relation.TransGen (IsChild tree) page page := by
 induction path with
 | root isRoot =>
  intro loop
  obtain ⟨_, -, last⟩ := tail'_iff.mp loop
  exact sound.rootless isRoot last
 | @child above first rest path inner ih =>
  intro loop
  have visits : IsChild tree above (route key first rest) := ⟨_, _, inner, route_mem⟩
  obtain ⟨_, down, last⟩ := tail'_iff.mp loop
  rw [sound.parent last visits] at down
  exact ih (head' visits down)

theorem Sound.not_self (sound : Sound tree) (path : OnPath tree key page) :
 ¬ IsChild tree page page := fun loop => sound.not_below path (.single loop)

def Descends (tree : Tree Key Value Page) : List Page → Page → Prop
 | [], _ => True
 | parent :: above, page => IsChild tree parent page ∧ Descends tree above parent

variable {above : List Page} {other : Page}

omit [LinearOrder Key] in
theorem Descends.below (descends : Descends tree above page) (member : other ∈ above) :
 Relation.TransGen (IsChild tree) other page := by
 induction above generalizing page with
 | nil => cases member
 | cons parent above ih =>
  rcases mem_cons.mp member with same | later
  · exact .single (same ▸ descends.1)
  · exact (ih descends.2 later).tail descends.1

theorem Sound.not_above (sound : Sound tree) (path : OnPath tree key page)
 (descends : Descends tree above page) : page ∉ above :=
 fun member => sound.not_below path (descends.below member)

theorem Sound.child_not_above (sound : Sound tree) (path : OnPath tree key page)
 (descends : Descends tree above page) (isChild : IsChild tree page child) :
 child ∉ above :=
 fun member => sound.not_below path (.head isChild (descends.below member))

omit [LinearOrder Key] in
theorem Descends.node (descends : Descends tree above page) (member : other ∈ above) :
 tree.node other ≠ none := by
 induction above generalizing page with
 | nil => cases member
 | cons parent above ih =>
  obtain ⟨⟨first, rest, inner, -⟩, higher⟩ := descends
  rcases mem_cons.mp member with same | later
  · simp_all
  · exact ih higher later

omit [LinearOrder Key] in
theorem Descends.frame (descends : Descends tree above page)
 (kept : ∀ other ∈ above, next.node other = tree.node other) : Descends next above page := by
 induction above generalizing page with
 | nil => trivial
 | cons parent above ih =>
  obtain ⟨⟨first, rest, inner, member⟩, higher⟩ := descends
  refine ⟨⟨first, rest, (kept parent mem_cons_self).trans inner, member⟩, ?_⟩
  simp_all

theorem Sound.node_of_onPath (sound : Sound tree) (path : OnPath tree key page) :
 tree.node page ≠ none := by
 cases path with
 | root isRoot => exact sound.rooted isRoot
 | child above inner => exact sound.present ⟨_, _, inner, route_mem⟩

def Leads (tree : Tree Key Value Page) (key : Key) (page child : Page) : Prop :=
 ∃ first rest, tree.node page = some (.inner first rest) ∧ route key first rest = child

theorem OnPath.leads (path : OnPath tree key page) : ∃ root, tree.root = some root ∧
 Relation.ReflTransGen (Leads tree key) root page := by
 induction path with
 | root isRoot => exact ⟨_, isRoot, .refl⟩
 | child above inner ih =>
  obtain ⟨root, isRoot, steps⟩ := ih
  exact ⟨root, isRoot, steps.tail ⟨_, _, inner, rfl⟩⟩

theorem leads_unique : Relator.RightUnique (Leads tree key) := by
 intro page left right toLeft toRight
 obtain ⟨first, rest, inner, same⟩ := toLeft
 obtain ⟨other, others, otherInner, otherSame⟩ := toRight
 simp_all

theorem leads_from_leaf {entries : List (Key × Value)}
 (found : tree.node page = some (.leaf entries))
 (steps : Relation.ReflTransGen (Leads tree key) page child) : page = child := by
 rcases steps.cases_head with same | ⟨_, ⟨_, _, inner, -⟩, -⟩
 · exact same
 · cases found.symm.trans inner

theorem OnPath.leaf_unique {entries others : List (Key × Value)} (path : OnPath tree key page)
 (found : tree.node page = some (.leaf entries)) (otherPath : OnPath tree key other)
 (otherFound : tree.node other = some (.leaf others)) :
 page = other := by
 obtain ⟨root, isRoot, steps⟩ := path.leads
 obtain ⟨same, isSame, otherSteps⟩ := otherPath.leads
 cases isRoot.symm.trans isSame
 rcases Relation.ReflTransGen.total_of_right_unique leads_unique steps otherSteps with down | up
 · exact leads_from_leaf found down
 · exact (leads_from_leaf otherFound up).symm

def Stored (tree : Tree Key Value Page) (key : Key) (value : Value) : Prop :=
 ∃ page entries, OnPath tree key page ∧ tree.node page = some (.leaf entries) ∧
  (key, value) ∈ entries

end MyNotes.Library.PagedTree
