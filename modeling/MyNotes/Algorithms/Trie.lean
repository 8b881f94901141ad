/-
The trie of the search notes whose words can be removed again.

A node owns its children, so a trie is a value here, and a path names a node.  The vector of
the children has 26 places from the start, so it is never empty and no node is deleted.
-/

import Mathlib.Data.Finset.Basic

namespace MyNotes.Algorithms

open Function List Option

abbrev Letter := Fin 26

abbrev Word := List Letter

inductive Trie where
 | node (children : Letter → Option Trie) (isEnd : Bool)

namespace Trie

def new : Trie := node (fun _ => none) false

/-- `children.empty()` -/
def vectorEmpty (children : Letter → Option Trie) : Bool := (List.ofFn children).isEmpty

def searchPrefix : Trie → Word → Option Trie
 | trie, [] => some trie
 | node children _, ch :: rest =>
  match children ch with
  | none => none
  | some child => child.searchPrefix rest

def insert : Trie → Word → Trie
 | node children _, [] => node children true
 | node children isEnd, ch :: rest =>
  node (update children ch (some (((children ch).getD new).insert rest))) isEnd

def isEnd : Trie → Bool
 | node _ isEnd => isEnd

def search (trie : Trie) (word : Word) : Bool :=
 match trie.searchPrefix word with
 | none => false
 | some found => found.isEnd

def startsWith (trie : Trie) (word : Word) : Bool := (trie.searchPrefix word).isSome

/-- What a recursive call leaves: the node, the answer, and the paths from the node on which
`delete` was called. -/
structure Removal where
 node : Trie
 shouldDelete : Bool
 deleted : List Word

/-- The recursion is on the rest of the word from `index` on. -/
def removeHelper : Trie → Word → Removal
 | node children isEnd, [] =>
  if !isEnd then ⟨node children isEnd, false, []⟩
  else ⟨node children false, vectorEmpty children, []⟩
 | node children isEnd, ch :: rest =>
  match children ch with
  | none => ⟨node children isEnd, false, []⟩
  | some child =>
   let below := child.removeHelper rest
   let deleted := below.deleted.map (ch :: ·)
   if below.shouldDelete then
    let children := update children ch none
    ⟨node children isEnd, !isEnd && vectorEmpty children, deleted ++ [[ch]]⟩
   else ⟨node (update children ch (some below.node)) isEnd, false, deleted⟩

inductive Operation where
 | insert (word : Word)
 | remove (word : Word)
 | search (word : Word)
 | startsWith (word : Word)

/-- The trie after a call, and the nodes that the call has deleted. -/
def apply (trie : Trie) : Operation → Trie × List Word
 | .insert word => (trie.insert word, [])
 | .remove word => ((trie.removeHelper word).node, (trie.removeHelper word).deleted)
 | .search _ => (trie, [])
 | .startsWith _ => (trie, [])

/-! ### A set of words -/

def wordsAfter (words : Finset Word) : Operation → Finset Word
 | .insert word => Insert.insert word words
 | .remove word => words.erase word
 | .search _ => words
 | .startsWith _ => words

def Present (trie : Trie) (path : Word) : Prop := (trie.searchPrefix path).isSome

structure Describes (trie : Trie) (words : Finset Word) : Prop where
 search : ∀ word, trie.search word = true ↔ word ∈ words
 startsWith : ∀ word, word ≠ [] →
  (trie.startsWith word = true ↔ ∃ other ∈ words, word <+: other)
 nodes : ∀ path, trie.Present path ↔ path = [] ∨ ∃ other ∈ words, path <+: other

/-- Every node that goes is under one deletion, and no other node is. -/
def DeletesOnce (before after : Trie) (deleted : List Word) : Prop :=
 ∀ path, before.Present path →
  deleted.countP (fun top => decide (top <+: path)) =
   if (after.searchPrefix path).isSome then 0 else 1

/-- Throughout the calls the trie is the set of the words. -/
def Follows (trie : Trie) (words : Finset Word) : List Operation → Prop
 | [] => trie.Describes words
 | operation :: rest =>
  trie.Describes words ∧ DeletesOnce trie (trie.apply operation).1 (trie.apply operation).2 ∧
   (trie.apply operation).1.Follows (wordsAfter words operation) rest

/-- A removal after which no node has to go: the word is absent, empty, or starts another one. -/
def LeavesNodes (words : Finset Word) : Operation → Prop
 | .remove word => word ∈ words → word = [] ∨ ∃ other ∈ words, other ≠ word ∧ word <+: other
 | _ => True

def LeavesNodesThroughout (words : Finset Word) : List Operation → Prop
 | [] => True
 | operation :: rest =>
  LeavesNodes words operation ∧ LeavesNodesThroughout (wordsAfter words operation) rest

/-! ### The nodes on a path -/

/-- The end mark of the node on a path, if there is one. -/
def mark (trie : Trie) (path : Word) : Option Bool := (trie.searchPrefix path).map isEnd

theorem search_iff {trie : Trie} {word : Word} :
 trie.search word = true ↔ trie.mark word = some true := by
 unfold search mark
 cases trie.searchPrefix word with
 | none => exact iff_of_false Bool.false_ne_true nofun
 | some found => exact (some_inj).symm

theorem isSome_mark (trie : Trie) (path : Word) :
 (trie.mark path).isSome = (trie.searchPrefix path).isSome :=
 isSome_map

theorem mark_nil (children : Letter → Option Trie) (isEnd : Bool) :
 (node children isEnd).mark [] = some isEnd := rfl

theorem mark_cons (children : Letter → Option Trie) (isEnd : Bool) (ch : Letter) (rest : Word) :
 (node children isEnd).mark (ch :: rest) = (children ch).bind (·.mark rest) := by
 unfold mark
 conv_lhs => unfold searchPrefix
 cases children ch with
 | none => rfl
 | some child => rfl

theorem mark_new (path : Word) : new.mark path = if path = [] then some false else none := by
 cases path with
 | nil => rfl
 | cons ch rest => rfl

theorem mark_insert (trie : Trie) (word path : Word) :
 (trie.insert word).mark path =
  if path = word then some true
  else if path <+: word then some ((trie.mark path).getD false)
  else trie.mark path := by
 induction word generalizing trie path with
 | nil =>
  cases trie with
  | node children isEnd =>
   unfold insert
   cases path with
   | nil => rfl
   | cons ch rest =>
    rw [mark_cons, mark_cons, if_neg (cons_ne_nil _ _),
     if_neg fun starts => cons_ne_nil _ _ (prefix_nil.mp starts)]
 | cons ch rest ih =>
  cases trie with
  | node children isEnd =>
   unfold insert
   cases path with
   | nil =>
    rw [mark_nil, mark_nil, if_neg (cons_ne_nil _ _).symm,
     if_pos ( nil_prefix)]
    rfl
   | cons other path =>
    rw [mark_cons, mark_cons]
    simp only [List.cons.injEq, cons_prefix_cons]
    by_cases same : other = ch
    · rw [same, update_self, bind_some, ih]
      simp only [true_and]
      cases children ch with
      | some child => rfl
      | none =>
       rw [getD_none, mark_new, bind_none]
       by_cases isNil : path = []
       · simp_all
       · rw [if_neg isNil]
    · simp_all

theorem vectorEmpty_eq_false (children : Letter → Option Trie) : vectorEmpty children = false := by
 unfold vectorEmpty
 rw [ofFn_succ]
 rfl

theorem removeHelper_keeps (trie : Trie) (word : Word) :
 (trie.removeHelper word).shouldDelete = false ∧ (trie.removeHelper word).deleted = [] := by
 induction word generalizing trie with
 | nil =>
  cases trie with
  | node children isEnd =>
   unfold removeHelper
   split
   · exact ⟨rfl, rfl⟩
   · exact ⟨vectorEmpty_eq_false children, rfl⟩
 | cons ch rest ih =>
  cases trie with
  | node children isEnd =>
   unfold removeHelper
   cases children ch with
   | none => exact ⟨rfl, rfl⟩
   | some child =>
    simp_all

theorem mark_remove (trie : Trie) (word path : Word) :
 (trie.removeHelper word).node.mark path =
  if path = word then (trie.mark path).map fun _ => false else trie.mark path := by
 induction word generalizing trie path with
 | nil =>
  cases trie with
  | node children isEnd =>
   unfold removeHelper
   cases path with
   | nil => cases isEnd <;> rfl
   | cons ch rest =>
    rw [if_neg (cons_ne_nil _ _), mark_cons]
    split <;> exact mark_cons _ _ _ _
 | cons ch rest ih =>
  cases trie with
  | node children isEnd =>
   unfold removeHelper
   cases found : children ch with
   | none =>
    dsimp only
    split
    · rename_i same
      rw [same, mark_cons, found]
      rfl
    · rfl
   | some child =>
    dsimp only
    rw [(removeHelper_keeps child rest).1]
    cases path with
    | nil => rfl
    | cons other path =>
     rw [mark_cons]
     simp only [List.cons.injEq]
     by_cases same : other = ch
     · rw [same, found, bind_some]
       simp only [true_and]
       rw [← ih]
       exact (mark_cons _ _ _ _).trans (by rw [update_self]; rfl)
     · have unchanged : ¬ (other = ch ∧ path = rest) := fun both => same both.1
       rw [if_neg unchanged]
       exact (mark_cons _ _ _ _).trans (by rw [update_of_ne same])

/-! ### The set of the words -/

theorem mark_isSome_of_prefix {trie : Trie} {path word : Word} (starts : path <+: word)
 (present : (trie.mark word).isSome) : (trie.mark path).isSome := by
 induction word generalizing trie path with
 | nil =>
  simp_all
 | cons ch rest ih =>
  cases trie with
  | node children isEnd =>
   cases path with
   | nil => rfl
   | cons other path =>
    obtain ⟨same, starts⟩ := cons_prefix_cons.mp starts
    rw [mark_cons] at present ⊢
    rw [same]
    cases found : children ch with
    | none =>
     simp_all
    | some child =>
     simp_all

def Marks (trie : Trie) (words : Finset Word) : Prop :=
 ∀ word, trie.mark word = some true ↔ word ∈ words

variable {trie : Trie} {words : Finset Word}

theorem new_marks : new.Marks ∅ := by
 intro word
 rw [mark_new]
 simp

theorem Marks.apply (marks : trie.Marks words) (operation : Operation) :
 (trie.apply operation).1.Marks (wordsAfter words operation) := by
 intro word
 cases operation with
 | insert inserted =>
  dsimp only [Trie.apply, wordsAfter]
  rw [mark_insert, Finset.mem_insert, ← marks word]
  split
  · simp_all
  · rename_i different
    rw [or_iff_right different]
    split
    · rename_i starts
      cases trie.mark word with
      | none => exact iff_of_false nofun nofun
      | some isEnd => rfl
    · rfl
 | remove removed =>
  dsimp only [Trie.apply, wordsAfter]
  rw [mark_remove, Finset.mem_erase, ← marks word]
  split
  · rename_i same
    refine iff_of_false ?_ fun both => both.1 same
    cases trie.mark word with
    | none => exact nofun
    | some isEnd => exact nofun
  · simp_all
 | search asked => exact marks word
 | startsWith asked => exact marks word

def Pruned (trie : Trie) (words : Finset Word) : Prop :=
 ∀ path, path ≠ [] → (trie.mark path).isSome → ∃ other ∈ words, path <+: other

theorem Marks.present (marks : trie.Marks words) {path other : Word} (member : other ∈ words)
 (starts : path <+: other) : (trie.mark path).isSome := by
 refine mark_isSome_of_prefix starts ?_
 rw [(marks other).mpr member]
 rfl

theorem Marks.describes_iff (marks : trie.Marks words) :
 trie.Describes words ↔ trie.Pruned words := by
 have root : (trie.mark []).isSome := by
  cases trie
  rfl
 constructor
 · intro describes path notRoot present
   rw [isSome_mark] at present
   exact (describes.startsWith path notRoot).mp present
 · intro pruned
   refine ⟨fun word => search_iff.trans (marks word), fun word notRoot => ?_, fun path => ?_⟩
   · unfold startsWith
     rw [← isSome_mark]
     exact ⟨pruned word notRoot, fun ⟨_, member, starts⟩ => marks.present member starts⟩
   · unfold Present
     rw [← isSome_mark]
     constructor
     · intro present
       by_cases isRoot : path = []
       · exact .inl isRoot
       · exact .inr (pruned path isRoot present)
     · intro either
       rcases either with isRoot | ⟨_, member, starts⟩
       · rw [isRoot]
         exact root
       · exact marks.present member starts

theorem deletesOnce (trie : Trie) (operation : Operation) :
 DeletesOnce trie (trie.apply operation).1 (trie.apply operation).2 := by
 intro path present
 have stays : ((trie.apply operation).1.searchPrefix path).isSome := by
  unfold Present at present
  rw [← isSome_mark] at present ⊢
  cases operation with
  | insert inserted =>
   dsimp only [apply]
   rw [mark_insert]
   split
   · rfl
   · split
     · rfl
     · exact present
  | remove removed =>
   dsimp only [apply]
   rw [mark_remove]
   split
   · rw [isSome_map]
     exact present
   · exact present
  | search asked => exact present
  | startsWith asked => exact present
 have noDeletion : (trie.apply operation).2 = [] := by
  cases operation with
  | remove removed => exact (removeHelper_keeps trie removed).2
  | _ => rfl
 rw [if_pos stays, noDeletion]
 rfl

theorem Pruned.apply_iff (pruned : trie.Pruned words) (marks : trie.Marks words)
 (operation : Operation) :
 (trie.apply operation).1.Pruned (wordsAfter words operation) ↔
  LeavesNodes words operation := by
 cases operation with
 | insert inserted =>
  refine iff_of_true (fun path notRoot present => ?_) trivial
  dsimp only [apply, wordsAfter] at present ⊢
  rw [mark_insert] at present
  by_cases starts : path <+: inserted
  · simp_all
  · rw [if_neg fun same : path = inserted => starts (same ▸ prefix_rfl),
     if_neg starts] at present
    obtain ⟨other, member, starts⟩ := pruned path notRoot present
    grind
 | remove removed =>
  dsimp only [apply, wordsAfter, LeavesNodes]
  have same : ∀ path, ((trie.removeHelper removed).node.mark path).isSome =
   (trie.mark path).isSome := by
   intro path
   rw [mark_remove]
   split
   · exact isSome_map
   · rfl
  constructor
  · intro after member
    by_cases isRoot : removed = []
    · exact .inl isRoot
    · obtain ⟨other, still, starts⟩ := after removed isRoot (by
       rw [same]
       exact marks.present member prefix_rfl)
      grind
  · intro leaves path notRoot present
    rw [same] at present
    obtain ⟨other, member, starts⟩ := pruned path notRoot present
    by_cases isRemoved : other = removed
    · rw [isRemoved] at member starts
      rcases leaves member with isEmpty | ⟨longer, stays, different, reaches⟩
      · simp_all
      · grind
    · grind
 | search asked => exact iff_of_true pruned trivial
 | startsWith asked => exact iff_of_true pruned trivial

theorem Marks.follows_iff (marks : trie.Marks words) (operations : List Operation) :
 trie.Follows words operations ↔
  trie.Pruned words ∧ LeavesNodesThroughout words operations := by
 induction operations generalizing trie words with
 | nil => exact marks.describes_iff.trans (and_iff_left trivial).symm
 | cons first rest ih =>
  unfold Follows LeavesNodesThroughout
  rw [marks.describes_iff, ih (marks.apply first)]
  constructor
  · intro ⟨pruned, _, after, throughout⟩
    exact ⟨pruned, (pruned.apply_iff marks first).mp after, throughout⟩
  · intro ⟨pruned, leaves, throughout⟩
    exact ⟨pruned, deletesOnce trie first, (pruned.apply_iff marks first).mpr leaves,
     throughout⟩

theorem new_pruned : new.Pruned ∅ := by
 intro path notRoot present
 rw [mark_new, if_neg notRoot] at present
 exact absurd present Bool.false_ne_true

/-- The trie is the set of the words throughout the calls if and only if each removal is of a
word that is absent, empty or the start of another one. -/
theorem follows_iff_leavesNodes (operations : List Operation) :
 new.Follows ∅ operations ↔ LeavesNodesThroughout ∅ operations :=
 (new_marks.follows_iff operations).trans (and_iff_right new_pruned)

/-- The only word is removed, and its nodes are still there. -/
theorem removed_word_stays :
 ¬ new.Follows ∅ [.insert [0, 1], .remove [0, 1]] ∧
  ((((new.insert [0, 1]).removeHelper [0, 1]).node.startsWith [0, 1]) = true) := by
 refine ⟨?_, by decide⟩
 rw [new_marks.follows_iff]
 intro ⟨_, _, leaves, _⟩
 dsimp only [LeavesNodes, wordsAfter] at leaves
 revert leaves
 decide

end Trie

end MyNotes.Algorithms
